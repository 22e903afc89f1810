import DeltaFeed.Proofs.Log.Instants
import DeltaFeed.Proofs.Log.Past
import Mathlib.Order.Bounds.Basic

/-! The times of commits in closed form. A commit has the time that its file tells, unless a commit
before it pushes it further: the next one comes at least one millisecond after it, the one after
that at least two, and so on. No times that strictly increase are earlier, and none of this depends
on when the log was read while it grew.
-/

namespace DeltaFeed.Log

open Store (Tree Path)

-----------------------------------------------------------------------------------------
-- Adjusted times
-----------------------------------------------------------------------------------------

theorem le_after (last : Option Int) (raw : Int)
    : raw ≤ after last raw := by
  cases last with
  | none => exact Int.le_refl raw
  | some last => exact (after_le_iff.mp (Int.le_refl _)).2

/-- No time is moved to an earlier one. -/
theorem le_ascending (last : Option Int) (raws : List Int)
    : List.Forall₂ (· ≤ ·) raws (ascending last raws) := by
  induction raws generalizing last with
  | nil => exact .nil
  | cons raw rest ih => exact .cons (le_after last raw) (ih _)

/-- Times that strictly increase, are later than a last one and not before the given ones are not
before the adjusted ones either.
-/
theorem ascending_le {last : Option Int} {raws times : List Int}
    (notBefore : List.Forall₂ (· ≤ ·) raws times) (increasing : times.Pairwise (· < ·))
    (later : ∀ millis ∈ last, ∀ time ∈ times, millis < time)
    : List.Forall₂ (· ≤ ·) (ascending last raws) times := by
  induction notBefore generalizing last with
  | nil => exact .nil
  | @cons raw time raws times fromRaw _ ih =>
      obtain ⟨afterTime, increasing⟩ := List.pairwise_cons.mp increasing
      have upTo : after last raw ≤ time := by
        cases last with
        | none => exact fromRaw
        | some millis =>
            exact after_le_iff.mpr ⟨later millis rfl time List.mem_cons_self, fromRaw⟩
      refine .cons upTo (ih increasing fun millis same next member => ?_)
      cases same
      exact Int.lt_of_le_of_lt upTo (afterTime next member)

/-- The next time follows from the one before it. -/
theorem getElem?_ascending_succ {last : Option Int} {raws : List Int} {i : Nat} {time raw : Int}
    (before : (ascending last raws)[i]? = some time) (next : raws[i + 1]? = some raw)
    : (ascending last raws)[i + 1]? = some (after (some time) raw) := by
  induction raws generalizing last i with
  | nil => cases next
  | cons first rest ih =>
      rw [List.getElem?_cons_succ] at next
      cases i with
      | succ i => exact ih before next
      | zero =>
          cases before
          cases rest with
          | nil => cases next
          | cons second more =>
              cases next
              rfl

/-- (pushed raws i) are the times that commits up to the i-th push it to: each is so many
milliseconds after the time that a file tells as there are commits from there to the i-th.
-/
def pushed (raws : List Int) (i : Nat) : Set Int :=
  {time | ∃ j ≤ i, ∃ raw, raws[j]? = some raw ∧ time = raw + ((i : Int) - j)}

/-- The greatest time that a commit is pushed to follows from that of the commit before it. -/
theorem isGreatest_pushed_succ {raws : List Int} {i : Nat} {time raw : Int}
    (before : IsGreatest (pushed raws i) time) (next : raws[i + 1]? = some raw)
    : IsGreatest (pushed raws (i + 1)) (after (some time) raw) := by
  obtain ⟨⟨j, upTo, given, isGiven, same⟩, greatest⟩ := before
  constructor
  · unfold after
    dsimp only
    split
    case isTrue => exact ⟨j, by omega, given, isGiven, by push_cast; omega⟩
    case isFalse => exact ⟨i + 1, Nat.le_refl _, raw, next, by omega⟩
  · rintro _ ⟨k, within, other, isOther, rfl⟩
    obtain ⟨afterTime, fromRaw⟩ := after_le_iff.mp (Int.le_refl (after (some time) raw))
    rcases Nat.lt_or_eq_of_le within with earlier | rfl
    · have bounded := greatest ⟨k, Nat.le_of_lt_succ earlier, other, isOther, rfl⟩
      push_cast
      omega
    · rw [next] at isOther
      cases isOther
      omega

/-- Each adjusted time is the greatest one that its commit is pushed to. -/
theorem isGreatest_ascending {raws : List Int} {i : Nat} {time : Int}
    (there : (ascending none raws)[i]? = some time)
    : IsGreatest (pushed raws i) time := by
  have size := (le_ascending none raws).length_eq
  induction i generalizing time with
  | zero =>
      have first : raws[0]? = some time := by
        cases raws with
        | nil => cases there
        | cons raw rest => exact there
      refine ⟨⟨0, Nat.le_refl 0, time, first, by omega⟩, ?_⟩
      rintro _ ⟨j, within, raw, isRaw, rfl⟩
      obtain rfl := Nat.le_zero.mp within
      rw [first] at isRaw
      cases isRaw
      omega
  | succ i ih =>
      obtain ⟨inside, _⟩ := List.getElem?_eq_some_iff.mp there
      have before : (ascending none raws)[i]? = some ((ascending none raws)[i]) :=
        List.getElem?_eq_getElem _
      have next : raws[i + 1]? = some (raws[i + 1]) := List.getElem?_eq_getElem _
      have step := getElem?_ascending_succ before next
      rw [Option.some.inj (there.symm.trans step)]
      exact isGreatest_pushed_succ (ih before) next

/-- (Adjusts raws times) says that times are the given ones, made to strictly increase: each is the
greatest one that it is pushed to, and no others that strictly increase and are not before the given
ones are earlier.
-/
structure Adjusts (raws times : List Int) : Prop where
  length_eq : times.length = raws.length
  greatest : ∀ i time, times[i]? = some time → IsGreatest (pushed raws i) time
  increasing : times.Pairwise (· < ·)
  notBefore : List.Forall₂ (· ≤ ·) raws times
  first : times.head? = raws.head?
  least
    : ∀ others : List Int,
        others.Pairwise (· < ·)
        → List.Forall₂ (· ≤ ·) raws others
        → List.Forall₂ (· ≤ ·) times others

theorem adjusts_ascending (raws : List Int)
    : Adjusts raws (ascending none raws) where
  length_eq := (le_ascending none raws).length_eq.symm
  greatest _ _ := isGreatest_ascending
  increasing := ascending_pairwise none raws
  notBefore := le_ascending none raws
  first := by cases raws <;> rfl
  least _ increasing notBefore := ascending_le notBefore increasing nofun

-----------------------------------------------------------------------------------------
-- The commits of a log
-----------------------------------------------------------------------------------------

/-- (IsRawTime tree place version raw) says that a time in milliseconds is the one that the file of
a commit tells: the first integer that the commit information on a line states, or, if there is
none, the time of its modification.
-/
def IsRawTime (tree : Tree) (place : Place) (version raw : Int) : Prop :=
  ∃ lines,
    load tree place version = .ok lines
    ∧ (lines.findSome? statedTime? = some raw
      ∨ lines.findSome? statedTime? = none ∧ modifiedMillis tree place version = .ok raw)

theorem isRawTime_of_timeAt {tree : Tree} {place : Place} {version raw : Int}
    (told : timeAt tree place version = .ok raw)
    : IsRawTime tree place version raw := by
  obtain ⟨lines, loaded, told⟩ := bind_eq_ok.mp told
  obtain ⟨stated, read, told⟩ := bind_eq_ok.mp told
  refine ⟨lines, loaded, ?_⟩
  rw [findSome?_of_statedMillis read]
  cases stated with
  | some millis => exact Or.inl (congrArg some (Except.ok.inj told))
  | none => exact Or.inr ⟨rfl, told⟩

/-- However a log was called while it grew, its commits are those of its versions, in order, and
their times are the ones that the files tell, adjusted as little as makes them strictly increase.
-/
theorem commits_adjust_raw_times {settings : Settings} {base : Path} {tree : Tree}
    {log : CommitLog} {versions : List Int} (growing : Growing settings base tree log)
    (sound : SoundLog tree (.ofBase settings base) settings.defaultProvider)
    (listed : listVersions tree (.ofBase settings base) = .ok versions)
    : ∃ commits raws times,
        ((CommitLog.commits tree).run log).result = .ok commits
        ∧ versions.Pairwise (· ≤ ·)
        ∧ commits.map (·.version) = versions
        ∧ commits.map (·.timestamp) = times.map (fun millis => .utc (1000 * millis))
        ∧ List.Forall₂ (IsRawTime tree (.ofBase settings base)) versions raws
        ∧ Adjusts raws times := by
  obtain ⟨_, gone, below, _, agrees⟩ := (growing.reaches sound).coherent
  have answer := (CommitLog.commits_yields below.apart sound agrees).result_eq
  obtain rfl := committed_of_listVersions listed
  rw [historyAt_of_listVersions _ listed] at answer
  refine ⟨_, _, _, answer, committed_sorted _ _, commitsOf_versions _ _ _,
    commitsOf_timestamps _ _ _, ?_, adjusts_ascending _⟩
  rw [List.forall₂_map_right_iff]
  exact List.forall₂_same.mpr fun v member => isRawTime_of_timeAt (sound.files v member).timeAt

/-- A log that asked for the commits of a directory, which was then given two more. -/
theorem commits_adjust_raw_times_sampleTree
    : ∃ log,
        Growing {} topPlace.base sampleTree log
        ∧ listVersions sampleTree topPlace = .ok [0, 1, 2]
        ∧ ∃ commits raws times,
            ((CommitLog.commits sampleTree).run log).result = .ok commits
            ∧ commits.map (·.version) = [0, 1, 2]
            ∧ commits.map (·.timestamp) = times.map (fun millis => .utc (1000 * millis))
            ∧ List.Forall₂ (IsRawTime sampleTree topPlace) [0, 1, 2] raws
            ∧ Adjusts raws times := by
  have growing
      : Growing {} topPlace.base sampleTree
          ((Call.commits.run (storeOf (filesOf sampleStart))).run
            (.ofBase {} topPlace.base)).state :=
    .grown _ (.called .commits (.opened _)) grows_sampleTree
  have listed : listVersions sampleTree topPlace = .ok [0, 1, 2] := by decide +kernel
  obtain ⟨commits, raws, times, answer, _, versions, timestamps, isRaw, adjusts⟩ :=
    commits_adjust_raw_times growing soundLog_sampleTree listed
  exact ⟨_, growing, listed, commits, raws, times, answer, versions, timestamps, isRaw, adjusts⟩

end DeltaFeed.Log
