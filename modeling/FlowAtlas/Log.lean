/-!
# Log records

What a step has to say beside its result: records of a level and a message, in the order in which
they arise.  `Logged α` is a result together with its records; sequencing appends them.
-/

namespace FlowAtlas

/-- How much a record matters. -/
inductive Level
  | debug
  | info
  | warning
  | error
deriving DecidableEq

namespace Level

/-- The levels in increasing order of weight. -/
def rank : Level → Nat
  | .debug => 0
  | .info => 1
  | .warning => 2
  | .error => 3

/-- The level's name in capitals. -/
def name : Level → String
  | .debug => "DEBUG"
  | .info => "INFO"
  | .warning => "WARNING"
  | .error => "ERROR"

/-- The level of a name in capitals. -/
def ofName? (text : String) : Option Level :=
  [debug, info, warning, error].find? fun l => l.name = text

end Level

/-- One log record. -/
structure LogRecord where
  level : Level
  message : String
deriving DecidableEq

/-- Log records in the order in which they arose. -/
abbrev Log := List LogRecord

/-- The records of at least the given level. -/
def Log.atLeast (log : Log) (level : Level) : Log :=
  log.filter fun r => level.rank ≤ r.level.rank

/-- A result with the records made on the way. -/
structure Logged (α : Type) where
  value : α
  log : Log

namespace Logged

variable {α β : Type}

instance : Monad Logged where
  pure a := ⟨a, []⟩
  bind x f := ⟨(f x.value).value, x.log ++ (f x.value).log⟩

@[simp] theorem value_pure (a : α) : (pure a : Logged α).value = a := rfl

@[simp] theorem log_pure (a : α) : (pure a : Logged α).log = [] := rfl

@[simp] theorem value_bind (x : Logged α) (f : α → Logged β) :
    (x >>= f).value = (f x.value).value := rfl

@[simp] theorem log_bind (x : Logged α) (f : α → Logged β) :
    (x >>= f).log = x.log ++ (f x.value).log := rfl

@[ext] theorem ext {x y : Logged α} (hv : x.value = y.value) (hl : x.log = y.log) : x = y := by
  cases x; cases y; cases hv; cases hl; rfl

/-- Make one record. -/
def emit (level : Level) (message : String) : Logged Unit := ⟨(), [⟨level, message⟩]⟩

/-- Make one record if the condition holds. -/
def emitIf (condition : Bool) (level : Level) (message : String) : Logged Unit :=
  if condition then emit level message else pure ()

/-- One step of `fold`; the records so far stand in reverse. -/
def gather (f : β → α → Logged β) (run : β × Log) (item : α) : β × Log :=
  ((f run.1 item).value, (f run.1 item).log.reverse ++ run.2)

/-- Take steps one after the other from a state on. -/
def fold (f : β → α → Logged β) (state : β) (items : List α) : Logged β :=
  let run := items.foldl (gather f) (state, [])
  ⟨run.1, run.2.reverse⟩

theorem foldl_gather (f : β → α → Logged β) (state : β) (log : Log) (items : List α) :
    items.foldl (gather f) (state, log) =
      ((items.foldl (gather f) (state, [])).1, (items.foldl (gather f) (state, [])).2 ++ log) := by
  induction items generalizing state log with
  | nil => rfl
  | cons item items ih =>
    rw [List.foldl_cons, List.foldl_cons, gather, gather, ih _ (_ ++ log), ih _ (_ ++ [])]
    simp

theorem fold_cons (f : β → α → Logged β) (state : β) (item : α) (items : List α) :
    fold f state (item :: items) = f state item >>= fun next => fold f next items := by
  have h := foldl_gather f (f state item).value (f state item).log.reverse items
  apply ext <;> simp [fold, gather, h]

theorem value_fold (f : β → α → Logged β) (state : β) (items : List α) :
    (fold f state items).value = items.foldl (fun state item => (f state item).value) state := by
  induction items generalizing state with
  | nil => rfl
  | cons item items ih => rw [fold_cons, value_bind, ih, List.foldl_cons]

end Logged

end FlowAtlas
