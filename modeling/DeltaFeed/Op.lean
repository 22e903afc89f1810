import DeltaFeed.Failure
import DeltaFeed.Journal

/-! Operations on a state that may fail and that write to the journal. The outcome always
carries the new state: what an operation changed before it failed stays changed.
-/

namespace DeltaFeed

structure Outcome (σ α : Type) where
  result : Except Failure α
  state : σ
  entries : List Entry

def Op (σ α : Type) : Type := σ → Outcome σ α

namespace Op

variable {σ τ α β : Type}

def run (op : Op σ α) (s : σ) : Outcome σ α := op s

def give (a : α) : Op σ α :=
  fun s => { result := .ok a, state := s, entries := [] }

def fail (failure : Failure) : Op σ α :=
  fun s => { result := .error failure, state := s, entries := [] }

/-- (andThen op next) runs op, and next on its result unless op failed. -/
def andThen (op : Op σ α) (next : α → Op σ β) : Op σ β := fun s =>
  let first := op s
  match first.result with
  | .error failure => { result := .error failure, state := first.state, entries := first.entries }
  | .ok a =>
    let second := next a first.state
    { second with entries := first.entries ++ second.entries }

instance : Monad (Op σ) where
  pure := give
  bind := andThen

def ofResult (result : Except Failure α) : Op σ α :=
  fun s => { result, state := s, entries := [] }

def current : Op σ σ :=
  fun s => { result := .ok s, state := s, entries := [] }

def change (f : σ → σ) : Op σ Unit :=
  fun s => { result := .ok (), state := f s, entries := [] }

def report (entry : Entry) : Op σ Unit :=
  fun s => { result := .ok (), state := s, entries := [entry] }

def tell (level : Level) (channel : Channel) (message : String) : Op σ Unit :=
  report { level, channel, message }

def forEach (items : List α) (act : α → Op σ Unit) : Op σ Unit :=
  match items with
  | [] => give ()
  | item :: rest => andThen (act item) fun _ => forEach rest act

/-- (attempt op) never fails: its result says how op ended. -/
def attempt (op : Op σ α) : Op σ (Except Failure α) := fun s =>
  let outcome := op s
  { result := .ok outcome.result, state := outcome.state, entries := outcome.entries }

/-- (within get set op) runs an operation on a part of the state. -/
def within (get : σ → τ) (set : τ → σ → σ) (op : Op τ α) : Op σ α := fun s =>
  let outcome := op (get s)
  { result := outcome.result, state := set outcome.state s, entries := outcome.entries }

/-- (onState t op) runs an operation on a state of its own, which is not kept. -/
def onState (t : τ) (op : Op τ α) : Op σ α := fun s =>
  let outcome := op t
  { result := outcome.result, state := s, entries := outcome.entries }

/-- (onFirst op) runs an operation on the first of two states. -/
def onFirst (op : Op σ α) : Op (σ × τ) α :=
  within (·.1) (fun s both => (s, both.2)) op

def onSecond (op : Op τ α) : Op (σ × τ) α :=
  within (·.2) (fun t both => (both.1, t)) op

@[simp] theorem run_pure (a : α) (s : σ)
    : (pure a : Op σ α).run s = { result := .ok a, state := s, entries := [] } := rfl

/-- A failed first operation is the outcome of a sequence. -/
theorem run_bind_error {op : Op σ α} {next : α → Op σ β} {s : σ} {failure : Failure}
    (h : (op.run s).result = .error failure)
    : (op >>= next).run s
      = { result := .error failure
          state := (op.run s).state
          entries := (op.run s).entries } := by
  show andThen op next s = _
  unfold andThen
  simp only [run] at h ⊢
  rw [h]

/-- After a first operation that ends with a value the next one starts in its state. -/
theorem run_bind_ok {op : Op σ α} {next : α → Op σ β} {s : σ} {a : α}
    (h : (op.run s).result = .ok a)
    : (op >>= next).run s
      = { (next a).run (op.run s).state with
          entries := (op.run s).entries ++ ((next a).run (op.run s).state).entries } := by
  show andThen op next s = _
  unfold andThen
  simp only [run] at h ⊢
  rw [h]

end Op

end DeltaFeed
