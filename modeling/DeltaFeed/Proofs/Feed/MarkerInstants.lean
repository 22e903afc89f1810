import DeltaFeed.Feed.Source
import DeltaFeed.Proofs.Log.Instants
import DeltaFeed.Proofs.Marker.RoundTrip

/-! What a marker stands for in a log. A marker that was written leads back to its instant, to the
millisecond; and a marker that came from elsewhere, with any fraction and any offset, leads to the
commit that is active at the instant that it denotes.
-/

namespace DeltaFeed.Feed

open Log (CommitLog Place commitsOf committed SoundLog Follows IsPast)
open Marker (IsoText)
open Store (Tree Path)
open Time (Timestamp)

-----------------------------------------------------------------------------------------
-- Markers that were written
-----------------------------------------------------------------------------------------

/-- The marker of a timestamp, with any offset or none, is read as the whole milliseconds of its
instant; that of a commit at whole milliseconds is read as its time.
-/
theorem marker_round_trip {t now : Timestamp} (inUtc : t.toUtc = .ok now)
    (late : 1000 ≤ now.date.year)
    : ∃ marker,
        Marker.write t = .ok marker
        ∧ Marker.toInstant (.text marker) = .ok (.utc (1000 * (now.instant / 1000)))
        ∧ (∀ (σ : Type) (s : σ),
            ((Marker.parse (.text marker) : Op σ Timestamp).run s).result
              = .ok (.utc (1000 * (now.instant / 1000))))
        ∧ ∀ commit : Commit,
            commit.timestamp = t
            → 1000 ∣ now.instant
            → Source.nextMarker commit = .ok marker
              ∧ (∀ (σ : Type) (s : σ),
                  ((Marker.parse (.text marker) : Op σ Timestamp).run s).result = .ok now)
              ∧ (commit.timestamp.offset = some 0 → now = commit.timestamp) := by
  obtain ⟨h, rfl⟩ : Time.Representable t.instant ∧ .utc t.instant = now := by
    unfold Timestamp.toUtc Timestamp.ofInstant at inUtc
    split at inUtc
    case isTrue h => exact ⟨h, Except.ok.inj inUtc⟩
    case isFalse => cases inUtc
  have same : (Timestamp.utc t.instant).instant = t.instant := Int.sub_zero _
  have written : Marker.write t = .ok (Marker.ofUtc (.utc t.instant)) := by
    rw [Marker.write, inUtc]
    rfl
  have parsed {σ : Type} (s : σ)
      : ((Marker.parse (.text (Marker.ofUtc (.utc t.instant))) : Op σ Timestamp).run s).result
        = .ok (.utc (1000 * (t.instant / 1000))) :=
    (Marker.parse_yields_cut h late (Q := fun _ => True) trivial).result_eq
  have read : Marker.toInstant (.text (Marker.ofUtc (.utc t.instant)))
      = .ok (.utc (1000 * (t.instant / 1000))) := by
    rw [Marker.toInstant, Marker.readText_ofUtc_cut h late]
  rw [same]
  refine ⟨_, written, read, fun _ => parsed, ?_⟩
  rintro commit rfl whole
  refine ⟨written, fun _ s => ?_, Timestamp.utc_instant⟩
  rw [parsed s, Int.mul_ediv_cancel' whole]

/-- Noon on a clock that is five and a half hours ahead of UTC, and 1999 microseconds. -/
def sampleNoon : Timestamp :=
  { wall := 1709640000001999, offset := some 19800000000 }

theorem marker_round_trip_sampleNoon
    : ∃ marker,
        Marker.write sampleNoon = .ok marker
        ∧ Marker.toInstant (.text marker) = .ok (.utc 1709620200001000)
        ∧ ((Marker.parse (.text marker) : Op Unit Timestamp).run ()).result
            = .ok (.utc 1709620200001000) := by
  obtain ⟨marker, written, read, parsed, _⟩ :=
    marker_round_trip (show sampleNoon.toUtc = .ok (.utc 1709620200001999) by decide) (by decide)
  exact ⟨marker, written, read, parsed Unit ()⟩

-----------------------------------------------------------------------------------------
-- Markers that denote any instant
-----------------------------------------------------------------------------------------

/-- (IsActiveAt commits x commit) says that a commit is active at an instant, which need not be a
whole number of microseconds: it is the last one that is not later, or else the first.
-/
structure IsActiveAt (commits : List Commit) (x : ℚ) (commit : Commit) : Prop where
  isCommit : commit ∈ commits
  le_iff
    : ∀ other ∈ commits,
        other.timestamp ≤ commit.timestamp
          ↔ (other.timestamp.instant : ℚ) ≤ x ∨ commits.head? = some other

/-- No two commits are active at an instant. -/
theorem IsActiveAt.unique {commits : List Commit} {x : ℚ} {commit other : Commit}
    (sorted : commits.Pairwise (·.timestamp < ·.timestamp)) (h : IsActiveAt commits x commit)
    (h' : IsActiveAt commits x other)
    : other = commit := by
  have upTo : other.timestamp ≤ commit.timestamp :=
    (h.le_iff other h'.isCommit).mpr
      ((h'.le_iff other h'.isCommit).mp (Int.le_refl other.timestamp.instant))
  have downTo : commit.timestamp ≤ other.timestamp :=
    (h'.le_iff commit h.isCommit).mpr
      ((h.le_iff commit h.isCommit).mp (Int.le_refl commit.timestamp.instant))
  exact Log.eq_of_timestamp_le sorted h.isCommit h'.isCommit upTo downTo

/-- Instants of one millisecond are after the same whole milliseconds. -/
theorem le_iff_of_same_millisecond {r millis : Int} {x : ℚ} (lower : (r : ℚ) ≤ x)
    (same : ⌊x / 1000⌋ = r / 1000)
    : 1000 * millis ≤ r ↔ ((1000 * millis : Int) : ℚ) ≤ x := by
  constructor
  · intro earlier
    exact le_trans (by exact_mod_cast earlier) lower
  · intro earlier
    have inMilli : millis ≤ ⌊x / 1000⌋ := by
      rw [Int.le_floor, le_div_iff₀ (by norm_num)]
      push_cast at earlier
      linarith
    omega

/-- A commit is not later than an instant exactly if it is not later than an earlier instant of the
same millisecond, for its time is a whole number of milliseconds.
-/
theorem timestamp_le_utc_iff {tree : Tree} {place : Log.Place} {provider : String} {commit : Commit}
    {r : Int} {x : ℚ} (member : commit ∈ commitsOf tree place provider) (lower : (r : ℚ) ≤ x)
    (same : ⌊x / 1000⌋ = r / 1000)
    : commit.timestamp ≤ .utc r ↔ (commit.timestamp.instant : ℚ) ≤ x := by
  obtain ⟨millis, _, time⟩ := Log.exists_millis_of_mem member
  have instant : commit.timestamp.instant = 1000 * millis := by
    rw [time]
    exact Int.sub_zero _
  have now : (Timestamp.utc r).instant = r := Int.sub_zero _
  rw [instant, ← le_iff_of_same_millisecond lower same]
  show commit.timestamp.instant ≤ (Timestamp.utc r).instant ↔ _
  rw [instant, now]

/-- A log takes an instant and any earlier one of its millisecond for the same. -/
theorem activeCommit_of_same_millisecond {settings : Settings} {base : Path} {tree : Tree}
    {log : CommitLog} {r : Int} {x : ℚ} (follows : Follows settings base tree log)
    (sound : SoundLog tree (.ofBase settings base) settings.defaultProvider)
    (nonempty : committed tree (.ofBase settings base) ≠ []) (inYears : Time.Representable r)
    (lower : (r : ℚ) ≤ x) (same : ⌊x / 1000⌋ = r / 1000)
    : (∃ commit,
        IsActiveAt (commitsOf tree (.ofBase settings base) settings.defaultProvider) x commit)
      ∧ ∀ commit,
          IsActiveAt (commitsOf tree (.ofBase settings base) settings.defaultProvider) x commit
          → ((CommitLog.activeCommit tree (.utc r) true).run log).result = .ok commit := by
  obtain ⟨gone, below, agrees⟩ := follows
  have sorted := Log.commitsOf_pairwise tree (.ofBase settings base) settings.defaultProvider
  have versions := Log.commitsOf_versions tree (.ofBase settings base) settings.defaultProvider
  obtain ⟨first, rest, begins⟩ := List.exists_cons_of_ne_nil
    (mt (congrArg (List.map (·.version))) (by simpa [versions] using nonempty)
      : commitsOf tree (.ofBase settings base) settings.defaultProvider ≠ [])
  have isFirst : first ∈ commitsOf tree (.ofBase settings base) settings.defaultProvider :=
    begins ▸ List.mem_cons_self
  obtain ⟨commit, isCommit, active, le_iff⟩ :=
    Log.History.exists_activeAt sorted begins (.utc r) true
  have isActive
      : IsActiveAt (commitsOf tree (.ofBase settings base) settings.defaultProvider) x commit := by
    refine ⟨isCommit, fun other member => ?_⟩
    rw [le_iff other member, IsPast, timestamp_le_utc_iff member lower same, begins,
      List.head?_cons, Option.some_inj, eq_comm (a := first)]
  refine ⟨⟨commit, isActive⟩, fun other isOther => ?_⟩
  obtain rfl := isActive.unique sorted isOther
  rw [(CommitLog.activeCommit_yields below.apart sound agrees _ true).result_eq,
    Timestamp.toUtc_utc inYears]
  dsimp only [bind, Except.bind]
  rw [Log.historyAt_of_mem isFirst]
  show Log.activeIn (Log.historyOf tree (.ofBase settings base) settings.defaultProvider
    (committed tree (.ofBase settings base))) (.utc r) true = .ok other
  rw [Log.activeIn, active]

/-- A marker in ISO 8601 form, with a fraction of any length, with `Z` or an offset, and with blanks
around it or none, is parsed as an instant in UTC that lies in the millisecond of the instant that
it denotes and is not later. So every log takes the two for the same.
-/
theorem parse_within_millisecond {text : IsoText} {left right : List Char} (valid : text.Valid)
    (begun : (Time.firstInstant : ℚ) ≤ text.instant) (notOver : text.instant < Time.lastInstant + 1)
    (blank : ∀ c ∈ left ++ right, Text.isBlank c = true)
    : ∃ r : Int,
        (∀ (σ : Type) (s : σ),
          ((Marker.parse (.text (String.ofList (left ++ text.chars ++ right)))
            : Op σ Timestamp).run s).result = .ok (.utc r))
        ∧ (0 ≤ text.instant - r ∧ text.instant - r < 1000)
        ∧ ⌊text.instant / 1000⌋ = r / 1000
        ∧ ∀ (settings : Settings) (base : Path) (tree : Tree) (log : CommitLog),
            Follows settings base tree log
            → SoundLog tree (.ofBase settings base) settings.defaultProvider
            → committed tree (.ofBase settings base) ≠ []
            → (∃ commit,
                IsActiveAt (commitsOf tree (.ofBase settings base) settings.defaultProvider)
                  text.instant commit)
              ∧ ∀ commit,
                  IsActiveAt (commitsOf tree (.ofBase settings base) settings.defaultProvider)
                    text.instant commit
                  → ((CommitLog.activeCommit tree (.utc r) true).run log).result = .ok commit := by
  obtain ⟨lower, upper, same⟩ := valid.micros_normal
  have inYears : Time.Representable text.normal.micros := by
    have firstMilli : Time.firstInstant / 1000 ≤ ⌊text.instant / 1000⌋ := by
      rw [Int.le_floor, le_div_iff₀ (by norm_num)]
      exact le_trans (by norm_num [Time.firstInstant]) begun
    have last : text.normal.micros < Time.lastInstant + 1 := by
      have := lower.trans_lt notOver
      exact_mod_cast this
    simp only [Time.Representable, Time.firstInstant, Time.lastInstant] at *
    omega
  refine ⟨text.normal.micros, fun _ s => ?_, ⟨by linarith, by linarith⟩, same, ?_⟩
  · exact (valid.parse_yields inYears blank (Q := fun _ => True) trivial).result_eq
  · intro settings base tree log follows sound nonempty
    exact activeCommit_of_same_millisecond follows sound nonempty inYears lower same

/-- A marker with twelve digits after the point, from a clock behind UTC. -/
def sampleMarker : IsoText where
  date := { year := 2024, month := 2, day := 29 }
  hour := 18
  minute := 30
  second := 59
  digits := "999999999999".toList
  zone := .offset true 5 30

theorem parse_within_millisecond_sampleMarker
    : ∃ r : Int,
        ((Marker.parse (.text " 2024-02-29T18:30:59.999999999999-05:30\t")
            : Op Unit Timestamp).run ()).result = .ok (.utc r)
        ∧ ⌊sampleMarker.instant / 1000⌋ = r / 1000
        ∧ ∃ commit,
            IsActiveAt (commitsOf Log.sampleTree Log.topPlace "parquet") sampleMarker.instant commit
            ∧ ((CommitLog.activeCommit Log.sampleTree (.utc r) true).run
                (.ofBase {} Log.topPlace.base)).result = .ok commit := by
  have isDigit : ∀ c ∈ sampleMarker.digits, c.isDigit = true := List.all_eq_true.mp (by decide)
  have valid : sampleMarker.Valid := by
    refine ⟨⟨?_, ?_, ?_, ?_, ?_, ?_⟩, ?_, ?_, ?_, isDigit, ?_, ?_⟩ <;> decide
  have begun : (Time.firstInstant : ℚ) ≤ sampleMarker.instant := by decide +kernel
  have notOver : sampleMarker.instant < Time.lastInstant + 1 := by decide +kernel
  have blank : ∀ c ∈ [' '] ++ ['\t'], Text.isBlank c = true := List.all_eq_true.mp (by decide)
  obtain ⟨r, parsed, _, same, resolved⟩ := parse_within_millisecond valid begun notOver blank
  obtain ⟨⟨commit, isActive⟩, answers⟩ := resolved {} Log.topPlace.base Log.sampleTree
    (.ofBase {} Log.topPlace.base) (Log.follows_ofBase _ _ _) Log.soundLog_sampleTree
    (by decide +kernel)
  exact ⟨r, parsed Unit (), same, commit, isActive, answers commit isActive⟩

end DeltaFeed.Feed
