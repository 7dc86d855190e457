import Mathlib.Logic.Function.Basic
import Mathlib.Data.List.Basic

/-!
# Promises (`promise.hpp`)

The library as it is compiled here, without `CPPROMISE_USE_STACK_FREE`. A promise is a number, its
address in the heap. Code that uses the library is a tree of the calls it makes; a lambda is the
name of its body, with what it captures in the name, so that a body can register itself again. What
is being executed is a stack of frames.

Reference counts are left out: a promise is never freed, so in particular not while its callbacks
run. An exception ends the run, as nothing in the library catches one.
-/

namespace OptRand.Promises

/-- Exceptions, and what the language leaves undefined. -/
inductive Error
  | mismatchType
  | other
  | undefined
  deriving DecidableEq

/-- `pm_any_t`. -/
inductive Any (V : Type)
  | empty
  | value (v : V)
  | values (vs : List (Any V))

/-- How a promise is settled. -/
inductive Side
  | fulfilled
  | rejected
  deriving DecidableEq

inductive State
  | pending
  | settled (side : Side)
  deriving DecidableEq

/-- What a lambda returns. -/
inductive Return (V : Type)
  | void
  | any (v : Any V)
  | promise (pm : ℕ)

/-- The code of a client: the calls it makes, and what follows them. `input` is anything that it
reads elsewhere. -/
inductive Code (F V : Type)
  | ret (r : Return V)
  | throw (e : Error)
  | input (k : V → Code F V)
  | create (k : ℕ → Code F V)
  | settle (pm : ℕ) (side : Side) (value : Option (Any V)) (k : Code F V)
  | andThen (pm : ℕ) (onFulfilled onRejected : Option F) (k : ℕ → Code F V)
  | all (pms : List ℕ) (k : ℕ → Code F V)
  | race (pms : List ℕ) (k : ℕ → Code F V)

/-- The lambdas that are given to `then`, those of the client and those of the library. -/
inductive Func (F : Type)
  | user (f : F)
  | settles (side : Side) (npm : ℕ)
  | slot (idx npm : ℕ)
  deriving DecidableEq

/-- `callback_t`, as `gen_on_fulfilled` and `gen_on_rejected` make it for the promise `pm`. Without
a function, `npm` is settled as `pm` is. -/
structure Callback (F : Type) where
  pm : ℕ
  side : Side
  func : Option (Func F)
  npm : ℕ
  deriving DecidableEq

/-- `Promise`. The values are `result` and `reason`, the callbacks `fulfilled_callbacks` and
`rejected_callbacks`. -/
structure Promise (F V : Type) where
  state : State := .pending
  values : Side → Any V := fun _ => .empty
  callbacks : Side → List (Callback F) := fun _ => []

/-- What `all` shares among its callbacks. `filled` and `children` are history: the slots that were
written, and what the calls of `then` returned. -/
structure Gather (V : Type) where
  size : ℕ
  results : List (Any V)
  filled : List ℕ := []
  children : List ℕ := []

/-- Where a promise comes from. A child of `pm` is what a `then` returned; `waited` tells whether
`pm` was pending. -/
inductive Origin (F : Type)
  | client
  | child (pm : ℕ) (func : Side → Option (Func F)) (waited : Bool)
  | all (pms : List ℕ)
  | race (pms : List ℕ)

/-- The call of a callback of the `then` that returned `npm`. -/
structure Call (V : Type) where
  npm : ℕ
  side : Side
  value : Any V

inductive Frame (F V : Type)
  /-- The code of the client. Its value settles a promise, if it is that of a lambda. -/
  | code (c : Code F V) (target : Option (Side × ℕ))
  | settle (pm : ℕ) (side : Side) (value : Option (Any V))
  /-- The loop of `trigger_fulfill` or `trigger_reject`. -/
  | trigger (pm : ℕ) (side : Side) (cbs : List (Callback F))
  | call (cb : Callback F)
  /-- The body of the lambda of `all` for a result. -/
  | slot (idx npm : ℕ) (result : Any V)
  /-- The loop of `all`. -/
  | all (pms : List ℕ) (idx npm : ℕ)
  /-- The loop of `race`. -/
  | race (pms : List ℕ) (npm : ℕ)

/-- The heap and the stack. `origins`, `log` and `forced` are history, which nothing reads: where
the promises come from, the calls of callbacks and the promises that the client settled, the newest
first. -/
structure Machine (F V : Type) where
  heap : ℕ → Promise F V := fun _ => {}
  next : ℕ := 0
  gathers : ℕ → Gather V := fun _ => ⟨0, [], [], []⟩
  stack : List (Frame F V) := []
  origins : ℕ → Origin F := fun _ => .client
  log : List (Call V) := []
  forced : List ℕ := []

namespace Machine

variable {F V : Type}

/-- `new Promise()`. -/
def create (s : Machine F V) (origin : Origin F) : Machine F V :=
  { s with next := s.next + 1, origins := Function.update s.origins s.next origin }

/-- `resolve` and `reject`. Without a value the old one stays. -/
def settle (s : Machine F V) (pm : ℕ) (side : Side) (value : Option (Any V)) : Machine F V :=
  match (s.heap pm).state with
  | .settled _ => s
  | .pending =>
    { s with
      heap := Function.update s.heap pm
        { s.heap pm with
          state := .settled side
          values := Function.update (s.heap pm).values side
            (value.getD ((s.heap pm).values side)) }
      stack := .trigger pm side ((s.heap pm).callbacks side) :: s.stack }

/-- The callback that `then` makes. -/
def callback (pm npm : ℕ) (func : Side → Option (Func F)) (side : Side) : Callback F :=
  ⟨pm, side, func side, npm⟩

/-- `then` and `fail`, with the promise they return. -/
def subscribe (s : Machine F V) (pm : ℕ) (func : Side → Option (Func F)) : Machine F V :=
  match (s.heap pm).state with
  | .settled side =>
    { s.create (.child pm func false) with
      stack := .call (callback pm s.next func side) :: s.stack }
  | .pending =>
    { s.create (.child pm func true) with
      heap := Function.update s.heap pm
        { s.heap pm with
          callbacks := fun side =>
            (s.heap pm).callbacks side ++ [callback pm s.next func side] } }

/-- The lambdas of `then`. -/
def userFuncs (onFulfilled onRejected : Option F) : Side → Option (Func F)
  | .fulfilled => onFulfilled.map .user
  | .rejected => onRejected.map .user

/-- The lambdas of `cps_transform` and of `race`. -/
def passFuncs (npm : ℕ) (side : Side) : Option (Func F) := some (.settles side npm)

/-- The lambdas of `all`. -/
def allFuncs (idx npm : ℕ) : Side → Option (Func F)
  | .fulfilled => some (.slot idx npm)
  | .rejected => some (.settles .rejected npm)

def push (s : Machine F V) (frames : List (Frame F V)) : Machine F V :=
  { s with stack := frames ++ s.stack }

/-- The end of a loop of callbacks. -/
def clear (s : Machine F V) (pm : ℕ) (side : Side) : Machine F V :=
  { s with
    heap := Function.update s.heap pm
      { s.heap pm with callbacks := Function.update (s.heap pm).callbacks side [] } }

/-- A result of `all` is written. -/
def fill (s : Machine F V) (idx npm : ℕ) (result : Any V) : Machine F V :=
  { s with
    gathers := Function.update s.gathers npm
      { s.gathers npm with
        size := (s.gathers npm).size - 1
        results := (s.gathers npm).results.set idx result
        filled := idx :: (s.gathers npm).filled } }

/-- What `all` allocates. -/
def gather (s : Machine F V) (npm : ℕ) (size : ℕ) : Machine F V :=
  { s with gathers := Function.update s.gathers npm ⟨size, List.replicate size .empty, [], []⟩ }

/-- A child of `all` is noted. -/
def adopt (s : Machine F V) (npm child : ℕ) : Machine F V :=
  { s with
    gathers := Function.update s.gathers npm
      { s.gathers npm with children := (s.gathers npm).children ++ [child] } }

/-- The value that a callback is given. -/
def argument (s : Machine F V) (cb : Callback F) : Any V := (s.heap cb.pm).values cb.side

/-- The call of a callback is noted. -/
def record (s : Machine F V) (cb : Callback F) : Machine F V :=
  { s with log := ⟨cb.npm, cb.side, s.argument cb⟩ :: s.log }

/-- The call of a callback. The library's own lambdas return nothing. -/
def run (body : F → Any V → Code F V) (s : Machine F V) (cb : Callback F) : List (Frame F V) :=
  match cb.func with
  | none => [.settle cb.npm cb.side (some (s.argument cb))]
  | some (.user f) => [.code (body f (s.argument cb)) (some (cb.side, cb.npm))]
  | some (.settles side m) =>
    [.settle m side (some (s.argument cb)), .settle cb.npm cb.side none]
  | some (.slot idx m) => [.slot idx m (s.argument cb), .settle cb.npm cb.side none]

/-- A call of the client. -/
def execCode (s : Machine F V) (x : V) (target : Option (Side × ℕ)) :
    Code F V → Except Error (Machine F V)
  | .ret r =>
    match target with
    | none => .ok s
    | some (side, npm) =>
      match r with
      | .void => .ok (s.push [.settle npm side none])
      | .any v => .ok (s.push [.settle npm side (some v)])
      | .promise q => if q < s.next then .ok (s.subscribe q (passFuncs npm)) else .error .undefined
  | .throw e => .error e
  | .input k => .ok (s.push [.code (k x) target])
  | .create k => .ok ((s.push [.code (k s.next) target]).create .client)
  | .settle pm side value k =>
    if pm < s.next then
      .ok { s.push [.settle pm side value, .code k target] with forced := pm :: s.forced }
    else .error .undefined
  | .andThen pm onFulfilled onRejected k =>
    if pm < s.next then
      .ok ((s.push [.code (k s.next) target]).subscribe pm (userFuncs onFulfilled onRejected))
    else .error .undefined
  | .all pms k =>
    if pms = [] then .error .mismatchType
    else
      .ok (((s.push [.all pms 0 s.next, .code (k s.next) target]).gather s.next pms.length).create
        (.all pms))
  | .race pms k => .ok ((s.push [.race pms s.next, .code (k s.next) target]).create (.race pms))

/-- A frame that was on top of the stack. -/
def exec (body : F → Any V → Code F V) (s : Machine F V) (x : V) :
    Frame F V → Except Error (Machine F V)
  | .code c target => s.execCode x target c
  | .settle pm side value => .ok (s.settle pm side value)
  | .trigger pm side [] => .ok (s.clear pm side)
  | .trigger pm side (cb :: cbs) => .ok (s.push [.call cb, .trigger pm side cbs])
  | .call cb => .ok ((s.record cb).push (s.run body cb))
  | .slot idx npm result =>
    let s := s.fill idx npm result
    if (s.gathers npm).size = 0 then
      .ok (s.push [.settle npm .fulfilled (some (.values (s.gathers npm).results))])
    else .ok s
  | .all [] _ _ => .ok s
  | .all (pm :: pms) idx npm =>
    if pm < s.next then
      .ok (((s.push [.all pms (idx + 1) npm]).adopt npm s.next).subscribe pm (allFuncs idx npm))
    else .error .undefined
  | .race [] _ => .ok s
  | .race (pm :: pms) npm =>
    if pm < s.next then .ok ((s.push [.race pms npm]).subscribe pm (passFuncs npm))
    else .error .undefined

/-- The next step, if something is being executed. -/
def step (body : F → Any V → Code F V) (s : Machine F V) (x : V) : Except Error (Machine F V) :=
  match s.stack with
  | [] => .ok s
  | frame :: rest => exec body { s with stack := rest } x frame

/-- What the execution of a frame does to the state below it. -/
inductive Exec (body : F → Any V → Code F V) (s : Machine F V) :
    Frame F V → Machine F V → Prop
  | ret (r : Return V) : Exec body s (.code (.ret r) none) s
  | returnVoid (side : Side) (npm : ℕ) :
      Exec body s (.code (.ret .void) (some (side, npm))) (s.push [.settle npm side none])
  | returnAny (v : Any V) (side : Side) (npm : ℕ) :
      Exec body s (.code (.ret (.any v)) (some (side, npm))) (s.push [.settle npm side (some v)])
  | returnPromise {q : ℕ} (side : Side) (npm : ℕ) (hq : q < s.next) :
      Exec body s (.code (.ret (.promise q)) (some (side, npm))) (s.subscribe q (passFuncs npm))
  | input (x : V) (k : V → Code F V) (target : Option (Side × ℕ)) :
      Exec body s (.code (.input k) target) (s.push [.code (k x) target])
  | create (k : ℕ → Code F V) (target : Option (Side × ℕ)) :
      Exec body s (.code (.create k) target) ((s.push [.code (k s.next) target]).create .client)
  | settleCode {pm : ℕ} (side : Side) (value : Option (Any V)) (k : Code F V)
      (target : Option (Side × ℕ)) (hpm : pm < s.next) :
      Exec body s (.code (.settle pm side value k) target)
        { s.push [.settle pm side value, .code k target] with forced := pm :: s.forced }
  | andThen {pm : ℕ} (onFulfilled onRejected : Option F) (k : ℕ → Code F V)
      (target : Option (Side × ℕ)) (hpm : pm < s.next) :
      Exec body s (.code (.andThen pm onFulfilled onRejected k) target)
        ((s.push [.code (k s.next) target]).subscribe pm (userFuncs onFulfilled onRejected))
  | all {pms : List ℕ} (k : ℕ → Code F V) (target : Option (Side × ℕ)) (hpms : pms ≠ []) :
      Exec body s (.code (.all pms k) target)
        (((s.push [.all pms 0 s.next, .code (k s.next) target]).gather s.next pms.length).create
          (.all pms))
  | race (pms : List ℕ) (k : ℕ → Code F V) (target : Option (Side × ℕ)) :
      Exec body s (.code (.race pms k) target)
        ((s.push [.race pms s.next, .code (k s.next) target]).create (.race pms))
  | settle (pm : ℕ) (side : Side) (value : Option (Any V)) :
      Exec body s (.settle pm side value) (s.settle pm side value)
  | triggerNil (pm : ℕ) (side : Side) : Exec body s (.trigger pm side []) (s.clear pm side)
  | triggerCons (pm : ℕ) (side : Side) (cb : Callback F) (cbs : List (Callback F)) :
      Exec body s (.trigger pm side (cb :: cbs)) (s.push [.call cb, .trigger pm side cbs])
  | call (cb : Callback F) : Exec body s (.call cb) ((s.record cb).push (s.run body cb))
  | slot {idx npm : ℕ} {result : Any V} (hsize : ((s.fill idx npm result).gathers npm).size ≠ 0) :
      Exec body s (.slot idx npm result) (s.fill idx npm result)
  | slotLast {idx npm : ℕ} {result : Any V}
      (hsize : ((s.fill idx npm result).gathers npm).size = 0) :
      Exec body s (.slot idx npm result) ((s.fill idx npm result).push
        [.settle npm .fulfilled
          (some (.values ((s.fill idx npm result).gathers npm).results))])
  | allNil (idx npm : ℕ) : Exec body s (.all [] idx npm) s
  | allCons {pm : ℕ} (pms : List ℕ) (idx npm : ℕ) (hpm : pm < s.next) :
      Exec body s (.all (pm :: pms) idx npm)
        (((s.push [.all pms (idx + 1) npm]).adopt npm s.next).subscribe pm (allFuncs idx npm))
  | raceNil (npm : ℕ) : Exec body s (.race [] npm) s
  | raceCons {pm : ℕ} (pms : List ℕ) (npm : ℕ) (hpm : pm < s.next) :
      Exec body s (.race (pm :: pms) npm)
        ((s.push [.race pms npm]).subscribe pm (passFuncs npm))

theorem exec_cases {body : F → Any V → Code F V} {s t : Machine F V} {x : V} {frame : Frame F V}
    (h : s.exec body x frame = .ok t) : Exec body s frame t := by
  cases frame with
  | code c target =>
    cases c with
    | ret r =>
      rcases target with - | ⟨side, npm⟩
      · cases h
        exact .ret r
      · cases r with
        | void =>
          cases h
          exact .returnVoid side npm
        | any v =>
          cases h
          exact .returnAny v side npm
        | promise q =>
          by_cases hq : q < s.next
          · simp only [exec, execCode, if_pos hq] at h
            cases h
            exact .returnPromise side npm hq
          · simp only [exec, execCode, if_neg hq] at h
            cases h
    | throw e => cases h
    | input k =>
      cases h
      exact .input x k target
    | create k =>
      cases h
      exact .create k target
    | settle pm side value k =>
      by_cases hpm : pm < s.next
      · simp only [exec, execCode, if_pos hpm] at h
        cases h
        exact .settleCode side value k target hpm
      · simp only [exec, execCode, if_neg hpm] at h
        cases h
    | andThen pm onFulfilled onRejected k =>
      by_cases hpm : pm < s.next
      · simp only [exec, execCode, if_pos hpm] at h
        cases h
        exact .andThen onFulfilled onRejected k target hpm
      · simp only [exec, execCode, if_neg hpm] at h
        cases h
    | all pms k =>
      by_cases hpms : pms = []
      · simp only [exec, execCode, if_pos hpms] at h
        cases h
      · simp only [exec, execCode, if_neg hpms] at h
        cases h
        exact .all k target hpms
    | race pms k =>
      cases h
      exact .race pms k target
  | settle pm side value =>
    cases h
    exact .settle pm side value
  | trigger pm side cbs =>
    cases cbs with
    | nil =>
      cases h
      exact .triggerNil pm side
    | cons cb cbs =>
      cases h
      exact .triggerCons pm side cb cbs
  | call cb =>
    cases h
    exact .call cb
  | slot idx npm result =>
    by_cases hsize : ((s.fill idx npm result).gathers npm).size = 0
    · simp only [exec, if_pos hsize] at h
      cases h
      exact .slotLast hsize
    · simp only [exec, if_neg hsize] at h
      cases h
      exact .slot hsize
  | all pms idx npm =>
    cases pms with
    | nil =>
      cases h
      exact .allNil idx npm
    | cons pm pms =>
      by_cases hpm : pm < s.next
      · simp only [exec, if_pos hpm] at h
        cases h
        exact .allCons pms idx npm hpm
      · simp only [exec, if_neg hpm] at h
        cases h
  | race pms npm =>
    cases pms with
    | nil =>
      cases h
      exact .raceNil npm
    | cons pm pms =>
      by_cases hpm : pm < s.next
      · simp only [exec, if_pos hpm] at h
        cases h
        exact .raceCons pms npm hpm
      · simp only [exec, if_neg hpm] at h
        cases h

/-- The states that are reached from `s`. When the stack is empty, the event loop calls any code. -/
inductive Run (body : F → Any V → Code F V) (s : Machine F V) : Machine F V → Prop
  | refl : Run body s s
  | event {t : Machine F V} (c : Code F V) (h : Run body s t) (hidle : t.stack = []) :
      Run body s { t with stack := [.code c none] }
  | step {t t' : Machine F V} (x : V) (h : Run body s t) (hstep : t.step body x = .ok t') :
      Run body s t'

theorem Run.trans {body : F → Any V → Code F V} {s t u : Machine F V} (h : Run body s t)
    (h' : Run body t u) : Run body s u := by
  induction h' with
  | refl => exact h
  | event c _ hidle ih => exact .event c ih hidle
  | step x _ hstep ih => exact .step x ih hstep

/-- The state after some steps, if `x` is read throughout. -/
def drive (body : F → Any V → Code F V) (x : V) : ℕ → Machine F V → Except Error (Machine F V)
  | 0, s => .ok s
  | n + 1, s =>
    match s.step body x with
    | .error e => .error e
    | .ok t => drive body x n t

theorem Run.of_drive {body : F → Any V → Code F V} {x : V} {n : ℕ} {s t : Machine F V}
    (h : drive body x n s = .ok t) : Run body s t := by
  induction n generalizing s with
  | zero =>
    cases h
    exact .refl
  | succ n ih =>
    unfold drive at h
    split at h
    · cases h
    · rename_i u hstep
      exact (Run.step x .refl hstep).trans (ih h)

/-- The state after an event that some steps complete. -/
theorem Run.of_event {body : F → Any V → Code F V} {x : V} {n : ℕ} {s t : Machine F V}
    (c : Code F V) (hidle : s.stack = [])
    (h : drive body x n { s with stack := [.code c none] } = .ok t) : Run body s t :=
  (Run.event c .refl hidle).trans (.of_drive h)

end Machine

end OptRand.Promises
