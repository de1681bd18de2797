import SymbolicPaths.Text.Hex

/-!
# Journals

Analyses are pure functions, and what they report on the way is part of their result: a
`Journaled α` is a value together with the events that led to it, in order. Events are log records,
lines of output, and the calls made to the loader and to the symbolic engine, so that a statement
about a run can count them.
-/

namespace SymbolicPaths

/-- The severity of a log record, gravest first. -/
inductive Level where
  | error
  | warn
  | info
  | debug
  | trace
  deriving DecidableEq

/-- A log record. -/
structure Record where
  level : Level
  message : String
  deriving DecidableEq

/-- Something that happened during a run. -/
inductive Event where
  /-- A message was logged. -/
  | logged (record : Record)
  /-- A line was written to the output. -/
  | printed (line : String)
  /-- From here on, log records are shown as this verbosity asks. -/
  | verbositySet (verbosity : UInt8)
  /-- The loader was asked for the binary at this path. -/
  | loaded (path : String)
  /-- The engine made a state at the entry of this block. -/
  | entered (address : Address)
  /-- The engine was asked to execute this block. -/
  | stepped (address : Address)
  /-- The solver was asked for the values of so many variables at once. -/
  | queried (count : Nat)
  deriving DecidableEq

/-- A value together with the events that led to it. -/
structure Journaled (α : Type) where
  value : α
  events : List Event

namespace Journaled

instance : Monad Journaled where
  pure a := ⟨a, []⟩
  bind x f := ⟨(f x.value).value, x.events ++ (f x.value).events⟩

@[simp] theorem value_pure {α : Type} (a : α) : (pure a : Journaled α).value = a := rfl

@[simp] theorem events_pure {α : Type} (a : α) : (pure a : Journaled α).events = [] := rfl

@[simp] theorem value_bind {α β : Type} (x : Journaled α) (f : α → Journaled β) :
    (x >>= f).value = (f x.value).value := rfl

@[simp] theorem events_bind {α β : Type} (x : Journaled α) (f : α → Journaled β) :
    (x >>= f).events = x.events ++ (f x.value).events := rfl

@[simp] theorem map_eq {α β : Type} (f : α → β) (x : Journaled α) :
    f <$> x = ⟨f x.value, x.events⟩ := by
  change (⟨f x.value, x.events ++ []⟩ : Journaled β) = _
  rw [List.append_nil]

instance : LawfulMonad Journaled :=
  LawfulMonad.mk' Journaled (fun x => by simp) (fun _ _ => rfl) (fun x f g => by
    change Journaled.mk _ _ = Journaled.mk _ _
    simp [List.append_assoc])

/-- What follows a value depends on that value alone. -/
theorem bind_congr_value {α β : Type} {x : Journaled α} {f g : α → Journaled β}
    (h : f x.value = g x.value) : x >>= f = x >>= g := by
  change Journaled.mk _ _ = Journaled.mk _ _
  rw [h]

/-- Notes an event. -/
def note (e : Event) : Journaled Unit :=
  ⟨(), [e]⟩

/-- Logs a message. -/
def log (level : Level) (message : String) : Journaled Unit :=
  note (.logged ⟨level, message⟩)

end Journaled

end SymbolicPaths
