import DeltaFeed.Op

/-! How operations end. The journal is left out: an operation yields a result, and what holds of
the state that it leaves is carried through a sequence from one step to the next.
-/

namespace DeltaFeed

/-- A sequence ends with a value if both of its parts do. -/
theorem bind_eq_ok {α β : Type} {first : Except Failure α} {next : α → Except Failure β} {b : β}
    : first >>= next = .ok b ↔ ∃ a, first = .ok a ∧ next a = .ok b := by
  cases first with
  | error failure => simp [bind, Except.bind]
  | ok a => simp [bind, Except.bind]

/-- A result ends with a value of a function if it ends with a value that is sent there. -/
theorem map_eq_ok {α β : Type} {f : α → β} {result : Except Failure α} {b : β}
    : f <$> result = .ok b ↔ ∃ a, result = .ok a ∧ f a = b := by
  cases result with
  | error failure => simp [Functor.map, Except.map]
  | ok a => simp [Functor.map, Except.map]

namespace Op

variable {σ τ α β : Type}

/-- Looking at the state goes on with that state. -/
theorem run_bind_current {next : σ → Op σ β} {s : σ}
    : (Op.current >>= next).run s = (next s).run s := rfl

/-- (op.Yields s result Q) says that op, started in s, ends with a result and leaves a state in Q.
-/
structure Yields (op : Op σ α) (s : σ) (result : Except Failure α) (Q : σ → Prop) : Prop where
  result_eq : (op.run s).result = result
  leaves : Q (op.run s).state

/-- (op.Returns s Q) says that op, started in s, ends with some value and leaves a state in Q. -/
def Returns (op : Op σ α) (s : σ) (Q : σ → Prop) : Prop :=
  ∃ a, op.Yields s (.ok a) Q

/-- (op.Ensures s R Q) says that op, started in s, leaves a state in Q, and that its value is in
R if it ends with one.
-/
structure Ensures (op : Op σ α) (s : σ) (R : α → Prop) (Q : σ → Prop) : Prop where
  value : ∀ a, (op.run s).result = .ok a → R a
  leaves : Q (op.run s).state

/-- (op.Preserves P) says that op leads from states in P to states in P, however it ends. -/
def Preserves (op : Op σ α) (P : σ → Prop) : Prop :=
  ∀ s, P s → P (op.run s).state

namespace Yields

variable {s : σ} {Q R : σ → Prop}

/-- What is known of the state that is left may be weakened. -/
theorem mono {op : Op σ α} {result : Except Failure α} (h : op.Yields s result Q)
    (weaker : ∀ s, Q s → R s)
    : op.Yields s result R :=
  ⟨h.result_eq, weaker _ h.leaves⟩

/-- A value is yielded in the same state. -/
theorem pure (a : α) (h : Q s)
    : (Pure.pure a : Op σ α).Yields s (.ok a) Q :=
  ⟨rfl, h⟩

/-- A failure is yielded in the same state. -/
theorem fail (failure : Failure) (h : Q s)
    : (Op.fail failure : Op σ α).Yields s (.error failure) Q :=
  ⟨rfl, h⟩

/-- A result is yielded in the same state. -/
theorem ofResult (result : Except Failure α) (h : Q s)
    : (Op.ofResult result : Op σ α).Yields s result Q :=
  ⟨rfl, h⟩

/-- A change yields the state that it makes. -/
theorem change (f : σ → σ) (h : Q (f s))
    : (Op.change f).Yields s (.ok ()) Q :=
  ⟨rfl, h⟩

/-- A sequence goes on with the value of its first operation, in the state that it left. -/
theorem bind {op : Op σ α} {next : α → Op σ β} {a : α} {result : Except Failure β}
    (first : op.Yields s (.ok a) Q) (second : ∀ s, Q s → (next a).Yields s result R)
    : (op >>= next).Yields s result R := by
  have after := second _ first.leaves
  constructor
  · rw [run_bind_ok first.result_eq]
    exact after.result_eq
  · rw [run_bind_ok first.result_eq]
    exact after.leaves

section Steps

variable {next : α → Op σ β} {result : Except Failure β} {a : α}

/-- A sequence that begins with a value goes on with it. -/
theorem bind_pure (h : (next a).Yields s result R)
    : (Pure.pure a >>= next).Yields s result R :=
  ⟨h.result_eq, h.leaves⟩

/-- A sequence that begins with a result goes on with its value. -/
theorem bind_ofResult (h : (next a).Yields s result R)
    : (Op.ofResult (.ok a) >>= next).Yields s result R :=
  ⟨h.result_eq, h.leaves⟩

/-- A sequence that looks at the state goes on with it, in the same state. -/
theorem bind_current {next : σ → Op σ β} (h : (next s).Yields s result R)
    : (Op.current >>= next).Yields s result R :=
  ⟨h.result_eq, h.leaves⟩

/-- A sequence that changes the state goes on in the state that it made. -/
theorem bind_change {f : σ → σ} {next : Unit → Op σ β} (h : (next ()).Yields (f s) result R)
    : (Op.change f >>= next).Yields s result R :=
  ⟨h.result_eq, h.leaves⟩

/-- A sequence that writes to the journal goes on in the same state. -/
theorem bind_tell {level : Level} {channel : Channel} {message : String}
    {next : Unit → Op σ β} (h : (next ()).Yields s result R)
    : (Op.tell level channel message >>= next).Yields s result R :=
  ⟨h.result_eq, h.leaves⟩

end Steps

/-- A sequence ends with the failure of its first operation. -/
theorem bind_error {op : Op σ α} {next : α → Op σ β} {failure : Failure}
    (first : op.Yields s (.error failure) Q)
    : (op >>= next).Yields s (.error failure) Q := by
  constructor
  · rw [run_bind_error first.result_eq]
  · rw [run_bind_error first.result_eq]
    exact first.leaves

/-- A sequence ends as the sequence of the results, where each step keeps what is known of the
state.
-/
theorem seq {op : Op σ α} {next : α → Op σ β} {first : Except Failure α}
    {second : α → Except Failure β} (h : op.Yields s first Q) (failed : ∀ s, Q s → R s)
    (after : ∀ a s, first = .ok a → Q s → (next a).Yields s (second a) R)
    : (op >>= next).Yields s (first >>= second) R := by
  cases first with
  | error failure => exact (bind_error h).mono failed
  | ok a => exact bind h fun s => after a s rfl

/-- An attempt yields the result of the operation as its value, whatever the result is. -/
theorem attempt {op : Op σ α} {result : Except Failure α} (h : op.Yields s result Q)
    : (Op.attempt op).Yields s (.ok result) Q :=
  ⟨congrArg Except.ok h.result_eq, h.leaves⟩

/-- An operation on the first part of a state leaves the second as it is. -/
theorem onFirst {op : Op σ α} {result : Except Failure α} (h : op.Yields s result Q) (t : τ)
    : (Op.onFirst op : Op (σ × τ) α).Yields (s, t) result (fun both => Q both.1 ∧ both.2 = t) :=
  ⟨h.result_eq, h.leaves, rfl⟩

/-- An operation on a part of a state leaves the state that has the new part. -/
theorem within {op : Op τ α} {get : σ → τ} {set : τ → σ → σ} {result : Except Failure α}
    {P : τ → Prop} (h : op.Yields (get s) result P) (back : ∀ t, P t → Q (set t s))
    : (Op.within get set op).Yields s result Q :=
  ⟨h.result_eq, back _ h.leaves⟩

/-- An operation on a state of its own leaves the state around it as it is. -/
theorem onState {op : Op τ α} {t : τ} {P : τ → Prop} {result : Except Failure α}
    (h : op.Yields t result P) (keep : Q s)
    : (Op.onState t op : Op σ α).Yields s result Q :=
  ⟨h.result_eq, keep⟩

/-- The states after each of some actions are linked by an invariant of the actions still to come.
-/
theorem forEach {act : α → Op σ Unit} {items : List α} (I : List α → σ → Prop)
    (step : ∀ item rest s, I (item :: rest) s → (act item).Yields s (.ok ()) (I rest))
    (start : I items s)
    : (Op.forEach items act).Yields s (.ok ()) (I []) := by
  induction items generalizing s with
  | nil => exact ⟨rfl, start⟩
  | cons item rest ih => exact bind (step item rest s start) fun _ next => ih next

end Yields

namespace Returns

variable {s : σ} {Q R : σ → Prop}

/-- What yields a value returns. -/
theorem of_yields {op : Op σ α} {a : α} (h : op.Yields s (.ok a) Q)
    : op.Returns s Q :=
  ⟨a, h⟩

/-- A sequence returns if both parts do, the second after any value of the first. -/
theorem bind {op : Op σ α} {next : α → Op σ β} (first : op.Returns s Q)
    (second : ∀ a s, Q s → (next a).Returns s R)
    : (op >>= next).Returns s R := by
  obtain ⟨a, yields⟩ := first
  obtain ⟨b, after⟩ := second a _ yields.leaves
  exact ⟨b, .bind (Q := (· = (op.run s).state)) ⟨yields.result_eq, rfl⟩ fun _ same => same ▸ after⟩

/-- An operation that returns does so on the first part of a state. -/
theorem onFirst {op : Op σ α} {t : τ} {P : σ × τ → Prop} (h : op.Returns s Q)
    (back : ∀ s, Q s → P (s, t))
    : (Op.onFirst op : Op (σ × τ) α).Returns (s, t) P :=
  have ⟨a, yields⟩ := h
  ⟨a, yields.result_eq, back _ yields.leaves⟩

end Returns

namespace Ensures

variable {s : σ} {R : α → Prop} {Q : σ → Prop}

/-- What yields a value in R ensures R. -/
theorem of_yields {op : Op σ α} {a : α} (h : op.Yields s (.ok a) Q) (value : R a)
    : op.Ensures s R Q := by
  refine ⟨fun b ended => ?_, h.leaves⟩
  rw [h.result_eq] at ended
  cases ended
  exact value

/-- A sequence ensures what its second part ensures after what the first one ensures. -/
theorem bind {op : Op σ α} {next : α → Op σ β} {T : β → Prop} (first : op.Ensures s R Q)
    (second : ∀ a s, R a → Q s → (next a).Ensures s T Q)
    : (op >>= next).Ensures s T Q := by
  cases ended : (op.run s).result with
  | error failure =>
      refine ⟨fun b returned => ?_, ?_⟩
      · rw [run_bind_error ended] at returned
        cases returned
      · rw [run_bind_error ended]
        exact first.leaves
  | ok a =>
      have after := second a _ (first.value a ended) first.leaves
      refine ⟨fun b returned => ?_, ?_⟩
      · rw [run_bind_ok ended] at returned
        exact after.value b returned
      · rw [run_bind_ok ended]
        exact after.leaves

/-- A result ensures what holds of its value, in the same state. -/
theorem ofResult {result : Except Failure α} (value : ∀ a, result = .ok a → R a) (h : Q s)
    : (Op.ofResult result : Op σ α).Ensures s R Q :=
  ⟨value, h⟩

end Ensures

namespace Preserves

variable {P : σ → Prop}

/-- What yields a state in P from each state in P preserves P. -/
theorem of_yields {op : Op σ α} {result : σ → Except Failure α}
    (h : ∀ s, P s → op.Yields s (result s) P)
    : op.Preserves P :=
  fun s start => (h s start).leaves

/-- A result preserves every property of the state. -/
theorem ofResult (result : Except Failure α)
    : (Op.ofResult result : Op σ α).Preserves P :=
  fun _ start => start

/-- A sequence preserves what both of its parts preserve, also if the first fails. -/
theorem bind {op : Op σ α} {next : α → Op σ β} (first : op.Preserves P)
    (second : ∀ a, (next a).Preserves P)
    : (op >>= next).Preserves P := by
  intro s start
  cases ended : (op.run s).result with
  | error failure =>
      rw [run_bind_error ended]
      exact first s start
  | ok a =>
      rw [run_bind_ok ended]
      exact second a _ (first s start)

/-- A value preserves every property of the state. -/
theorem pure (a : α)
    : (Pure.pure a : Op σ α).Preserves P :=
  fun _ start => start

/-- Looking at the state preserves every property of it. -/
theorem current
    : (Op.current : Op σ σ).Preserves P :=
  fun _ start => start

/-- Writing to the journal preserves every property of the state. -/
theorem tell (level : Level) (channel : Channel) (message : String)
    : (Op.tell level channel message : Op σ Unit).Preserves P :=
  fun _ start => start

/-- An attempt preserves what the operation preserves. -/
theorem attempt {op : Op σ α} (h : op.Preserves P)
    : (Op.attempt op).Preserves P :=
  h

/-- A loop preserves what its step preserves, by induction on the items. -/
theorem forEach {act : α → Op σ Unit} (h : ∀ item, (act item).Preserves P) (items : List α)
    : (Op.forEach items act).Preserves P := by
  induction items with
  | nil => exact fun _ start => start
  | cons item rest ih => exact bind (h item) fun _ => ih

end Preserves

end Op

end DeltaFeed
