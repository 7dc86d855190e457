import OptRand.Hotstuff.Base

/-!
# Replicas and systems as transition systems

A `Node` is a replica with its call stack. Its event loop takes an `Event` when the stack is
empty; otherwise the top frame runs. An exception that leaves a frame ends the process.

A `System` is `n` nodes and what they have sent. Byzantine replicas send what they like, but
a signature of an honest replica only after they have received it.
-/

namespace OptRand.Hotstuff

variable {T : PayloadTypes}

/-! ## One replica -/

/-- A replica process: its state, its call stack and the exception that ended it. -/
structure Node (T : PayloadTypes) where
  rep : Replica T
  stack : List (Frame T)
  crashed : Option Error

/-- What the event loop of a replica reacts to: a message, the end of a verification, a
timer, or a client command. -/
inductive Event (T : PayloadTypes)
  | message (peer : ℕ) (msg : Msg T)
  | verified (id : ℕ)
  | proposeTimer
  | fetchTimeout (blkHash : ℕ)
  | command (cmdHash : ℕ)

/-- The call that an event starts. -/
def Event.frame : Event T → Frame T
  | .message peer msg => .handle peer msg
  | .verified id => .notify id .veri
  | .proposeTimer => .onProposeTimer
  | .fetchTimeout h => .fetchTimeout h
  | .command cmdHash => .execCommand cmdHash

/-- Whether an event can occur: a verification must be running and the timer be set. -/
def Event.enabled (s : Replica T) : Event T → Prop
  | .verified id => ∃ p ∈ s.pendings, p.id = id ∧ .veri ∈ p.conds
  | .proposeTimer => s.proposeTimer = true
  | _ => True

namespace Node

/-- A replica that has just started. -/
def init (E : Env T) (id : ℕ) : Node T := ⟨E.init id, [], none⟩

/-- Whether the event loop of a replica can take the next event. -/
def Idle (x : Node T) : Prop := x.stack = [] ∧ x.crashed = none

/-- Take an event. -/
def take (x : Node T) (ev : Event T) : Node T := { x with stack := [ev.frame] }

/-- The node after a frame with the given effect, over the frames `stack`. -/
def after (o : Outcome T) (stack : List (Frame T)) : Node T :=
  match o.error with
  | none => ⟨o.rep, o.calls ++ stack, none⟩
  | some e => ⟨o.rep, [], some e⟩

end Node

/-! ## Systems -/

/-- A frame that a replica ran, with the state it ran in. -/
structure Executed (T : PayloadTypes) where
  node : ℕ
  rep : Replica T
  frame : Frame T

/-- The effect that the frame had. -/
def Executed.outcome (E : Env T) (e : Executed T) : Outcome T := e.rep.exec E e.frame

/-- A system: its replicas, the messages sent so far with sender and receiver, and the
frames run so far, the last one first. -/
structure System (T : PayloadTypes) where
  nodes : ℕ → Node T
  sent : List (ℕ × ℕ × Msg T)
  trace : List (Executed T)

/-- The signatures in a certificate. -/
def QuorumCertSecp256k1.signatures {Sig : Type} (qc : QuorumCertSecp256k1 Sig) : List Sig :=
  qc.sigs.map Prod.snd

/-- The signatures in a block. -/
def BlockContent.signatures (c : BlockContent T) : List Signature :=
  match c.qc with
  | some cert => cert.signatures
  | none => []

/-- The signatures in a message; `readable` are those that a chunk shows. -/
def Msg.signatures (readable : T.Chunk → List Signature) : Msg T → List Signature
  | .propose p => p.blk.signatures
  | .vote v => [v.cert.sig]
  | .reqBlock _ => []
  | .respBlock blks => blks.flatMap BlockContent.signatures
  | .status st => st.qc.signatures
  | .echo e => e.cert.sig :: readable e.chunk
  | .echo2 e => e.cert.sig :: readable e.chunk
  | .qc cert => cert.signatures
  | .ack a => [a.cert.sig]
  | .share _ => []
  | .beacon _ => []
  | .pvssTranscript _ => []

/-- What is fixed in the runs of a system: which replicas are Byzantine and which signatures
a chunk shows. -/
structure Faults (T : PayloadTypes) where
  byzantine : Finset ℕ
  readable : T.Chunk → List Signature

namespace System

variable (E : Env T) (F : Faults T)

/-- An honest replica. -/
def Honest (i : ℕ) : Prop := i < E.nreplicas ∧ i ∉ F.byzantine

/-- The system when all replicas have started. -/
def init : System T := ⟨Node.init E, [], []⟩

/-- What the replicas have emitted so far. -/
def Emitted (σ : System T) (i : ℕ) (out : Output T) : Prop :=
  ∃ e ∈ σ.trace, e.node = i ∧ out ∈ (e.outcome E).out

/-- Whether replica `i` has run the frame `fr` in view `v`. -/
def Ran (σ : System T) (i : ℕ) (fr : Frame T) (v : ℕ) : Prop :=
  ∃ e ∈ σ.trace, e.node = i ∧ e.frame = fr ∧ e.rep.view = v

/-- The messages that an output of replica `i` sends. -/
def messages (i : ℕ) : Output T → List (ℕ × ℕ × Msg T)
  | .send dest msg => [(i, dest, msg)]
  | .broadcast msg => ((List.range E.nreplicas).filter fun j => j ≠ i).map fun j => (i, j, msg)
  | _ => []

/-- A signature that Byzantine replicas can use: not one of an honest replica, or one that
was sent to them. -/
def Known (σ : System T) (sig : Signature) : Prop :=
  ¬ Honest E F sig.signer ∨
    ∃ p ∈ σ.sent, p.2.1 ∈ F.byzantine ∧ sig ∈ p.2.2.signatures F.readable

/-- A message that can reach replica `i` from `peer`: one that an honest `peer` sent to it, or
one that a Byzantine `peer` can build. -/
def CanReceive (σ : System T) (i peer : ℕ) (msg : Msg T) : Prop :=
  (Honest E F peer ∧ (peer, i, msg) ∈ σ.sent) ∨
    (peer ∈ F.byzantine ∧ ∀ sig ∈ msg.signatures F.readable, Known E F σ sig)

/-- An event that can occur at replica `i`. -/
def Possible (σ : System T) (i : ℕ) (ev : Event T) : Prop :=
  ev.enabled (σ.nodes i).rep ∧
    match ev with
    | .message peer msg => CanReceive E F σ i peer msg
    | _ => True

/-- The system in which replica `i` has taken an event. -/
def take (σ : System T) (i : ℕ) (ev : Event T) : System T :=
  { σ with nodes := Function.update σ.nodes i ((σ.nodes i).take ev) }

/-- The system in which replica `i` has run a frame. -/
def runFrame (σ : System T) (i : ℕ) (fr : Frame T) (stack : List (Frame T)) : System T :=
  let o := (σ.nodes i).rep.exec E fr
  { nodes := Function.update σ.nodes i (Node.after o stack)
    sent := (o.out.flatMap (messages E i)).reverse ++ σ.sent
    trace := ⟨i, (σ.nodes i).rep, fr⟩ :: σ.trace }

/-- The states of the runs in which every frame that is run satisfies `ok` before it. -/
inductive Run (ok : System T → ℕ → Frame T → Prop) : System T → Prop
  | init : Run ok (init E)
  | event {σ : System T} (run : Run ok σ) (i : ℕ) (ev : Event T) (honest : Honest E F i)
      (idle : (σ.nodes i).Idle) (possible : Possible E F σ i ev) : Run ok (σ.take i ev)
  | frame {σ : System T} (run : Run ok σ) (i : ℕ) (fr : Frame T) (stack : List (Frame T))
      (honest : Honest E F i) (top : (σ.nodes i).stack = fr :: stack) (meets : ok σ i fr) :
      Run ok (σ.runFrame E i fr stack)

/-- The states of all runs. -/
def Reachable : System T → Prop := Run E F fun _ _ _ => True

end System

end OptRand.Hotstuff
