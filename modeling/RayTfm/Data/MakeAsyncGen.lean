import RayTfm.Lib.Dealing
import RayTfm.Lib.Reach

/-! # The generator of `make_async_gen`

The model of `make_async_gen` of `data/_internal/util.py` with `preserve_ordering`.  A filling
worker deals the items of the base iterator to the input queues, each transforming worker takes its
input queue through `fn` to its output queue, and the thread that iterates takes one element after
another from the output queues.  The input queues have no bound, the output queues hold `bufferSize`
elements.

The threads are stepped in any order: a step is one operation on a queue, or the work of a thread
between two of them.  When the generator has ended the flag of the queues is set and nothing that
the other threads do is seen any more, so they take no steps then.  The results of `fn` are no
exceptions.

What the generator yields does not depend on the order of the steps: the outputs of each worker are
known (`AsyncGenArgs.outputs`) and are taken row by row (`Turn`). -/

namespace RayTfm.Data

/-- What `fn` does with one item: the results that it gives, and what it raises after them. -/
structure ItemRun (U E : Type) where
  results : List U
  raised : Option E
deriving DecidableEq

/-- An element of an output queue. -/
inductive QueuedOutput (U E : Type) where
  | result (result : U)
  | sentinel
  | exception (e : E)
deriving DecidableEq

/-- The arguments.  The base iterator gives the items and then stops or raises; `endsThread` tells
which exceptions end a worker without a word: `InterruptedError`, which both workers catch to pass
over it, and what is no `Exception` (`SystemExit`, `KeyboardInterrupt`, `GeneratorExit`,
`asyncio.CancelledError`), which neither catches. -/
structure AsyncGenArgs (T U E : Type) where
  items : List T
  raised : Option E
  fn : T → ItemRun U E
  numWorkers : ℕ
  bufferSize : ℕ
  endsThread : E → Bool

/-- Where the filling worker is: it deals items, the first of which has the index `idx`; it puts the
sentinels; or it puts the exception into the output queues that are left. -/
inductive FillingWorker (T E : Type) where
  | dealing (idx : ℕ) (rest : List T)
  | sentinels (idx : ℕ)
  | exceptions (e : E) (left : List ℕ)
  | ended
deriving DecidableEq

/-- A transforming worker: the elements that it has still to put, and whether it takes from its
input queue then. -/
structure TransformingWorker (U E : Type) where
  pending : List (QueuedOutput U E)
  running : Bool
deriving DecidableEq

/-- What has become of the generator. -/
inductive GenOutcome (E : Type) where
  | running
  | ended
  | raised (e : E)
deriving DecidableEq

/-- The threads with their queues, of which `none` is the sentinel of an input queue; `round` are
the queues that the `for` loop has still to visit. -/
structure AsyncGen (T U E : Type) where
  filling : FillingWorker T E
  inputQueues : ℕ → List (Option T)
  workers : ℕ → TransformingWorker U E
  outputQueues : ℕ → List (QueuedOutput U E)
  remaining : List ℕ
  round : List ℕ
  emptyQueues : List ℕ
  yielded : List U
  outcome : GenOutcome E

inductive AsyncGenThread where
  | filling
  | transforming (idx : ℕ)
  | iterating
deriving DecidableEq, Repr

/-- Why a thread makes no step. -/
inductive Halted where
  | blocked
  | ended
deriving DecidableEq, Repr

variable {T U E : Type}

/-- `put` on a queue with a bound. -/
def boundedPut {α : Type} (maxSize : ℕ) (queue : List α) (item : α) : Except Halted (List α) :=
  if queue.length < maxSize then .ok (queue ++ [item]) else .error .blocked

/-- `get`. -/
def blockingGet {α : Type} : List α → Except Halted (α × List α)
  | [] => .error .blocked
  | item :: queue => .ok (item, queue)

namespace AsyncGenArgs

/-- A worker that has taken an element: it puts the results and what is raised, unless that ends the
thread, or the sentinel. -/
def transformed (args : AsyncGenArgs T U E) : Option T → TransformingWorker U E
  | none => ⟨[.sentinel], false⟩
  | some item =>
    match (args.fn item).raised with
    | none => ⟨(args.fn item).results.map .result, true⟩
    | some e =>
      ⟨(args.fn item).results.map .result ++ if args.endsThread e then [] else [.exception e], false⟩

/-- Where the filling worker goes on after the last item; it takes the output queues backwards. -/
def filled (args : AsyncGenArgs T U E) : FillingWorker T E :=
  match args.raised with
  | none => .sentinels 0
  | some e =>
    if args.endsThread e then .ended else .exceptions e (List.range args.numWorkers).reverse

end AsyncGenArgs

namespace AsyncGen

/-- The state at the first round; there is at least one worker. -/
def init (args : AsyncGenArgs T U E) : AsyncGen T U E where
  filling := .dealing 0 args.items
  inputQueues := fun _ => []
  workers := fun _ => ⟨[], true⟩
  outputQueues := fun _ => []
  remaining := List.range args.numWorkers
  round := List.range args.numWorkers
  emptyQueues := []
  yielded := []
  outcome := .running

/-- A step of `_run_filling_worker`. -/
def fill (args : AsyncGenArgs T U E) (s : AsyncGen T U E) : Except Halted (AsyncGen T U E) :=
  match s.filling with
  | .dealing idx (item :: rest) =>
    .ok { s with
      filling := .dealing (idx + 1) rest
      inputQueues := Function.update s.inputQueues (idx % args.numWorkers)
        (s.inputQueues (idx % args.numWorkers) ++ [some item]) }
  | .dealing _ [] => .ok { s with filling := args.filled }
  | .sentinels idx =>
    if idx < args.numWorkers then
      .ok { s with
        filling := .sentinels (idx + 1)
        inputQueues := Function.update s.inputQueues (idx % args.numWorkers)
          (s.inputQueues (idx % args.numWorkers) ++ [none]) }
    else .ok { s with filling := .ended }
  | .exceptions e (j :: left) => do
      let queue ← boundedPut args.bufferSize (s.outputQueues j) (.exception e)
      return { s with
        filling := .exceptions e left
        outputQueues := Function.update s.outputQueues j queue }
  | .exceptions _ [] => .ok { s with filling := .ended }
  | .ended => .error .ended

/-- A step of `_run_transforming_worker`. -/
def transform (args : AsyncGenArgs T U E) (s : AsyncGen T U E) (j : ℕ) :
    Except Halted (AsyncGen T U E) :=
  match (s.workers j).pending with
  | output :: pending => do
      let queue ← boundedPut args.bufferSize (s.outputQueues j) output
      return { s with
        workers := Function.update s.workers j ⟨pending, (s.workers j).running⟩
        outputQueues := Function.update s.outputQueues j queue }
  | [] =>
    if (s.workers j).running then do
      let (item, queue) ← blockingGet (s.inputQueues j)
      return { s with
        inputQueues := Function.update s.inputQueues j queue
        workers := Function.update s.workers j (args.transformed item) }
    else .error .ended

/-- A step of the generator itself. -/
def iterate (s : AsyncGen T U E) : Except Halted (AsyncGen T U E) :=
  match s.round with
  | [] =>
    let remaining :=
      if s.emptyQueues = [] then s.remaining else s.remaining.filter (fun j => j ∉ s.emptyQueues)
    .ok { s with
      remaining := remaining
      round := remaining
      emptyQueues := []
      outcome := if remaining = [] then .ended else .running }
  | j :: round => do
      let (item, queue) ← blockingGet (s.outputQueues j)
      let s := { s with outputQueues := Function.update s.outputQueues j queue, round := round }
      return match item with
        | .exception e => { s with outcome := .raised e }
        | .sentinel => { s with emptyQueues := s.emptyQueues ++ [j] }
        | .result result => { s with yielded := s.yielded ++ [result] }

/-- One step of a thread. -/
def step (args : AsyncGenArgs T U E) (s : AsyncGen T U E) (thread : AsyncGenThread) :
    Except Halted (AsyncGen T U E) :=
  match s.outcome with
  | .running =>
    match thread with
    | .filling => s.fill args
    | .transforming idx => if idx < args.numWorkers then s.transform args idx else .error .ended
    | .iterating => s.iterate
  | _ => .error .ended

/-- The states that are reached. -/
abbrev Reached (args : AsyncGenArgs T U E) (s : AsyncGen T U E) : Prop :=
  Reach (step args) (fun _ _ => True) (init args) s

/-- The generator has not ended, and every thread is blocked on a queue or has ended. -/
def Stuck (args : AsyncGenArgs T U E) (s : AsyncGen T U E) : Prop :=
  s.outcome = .running ∧ ∀ thread, ∃ h, step args s thread = .error h

end AsyncGen

end RayTfm.Data
