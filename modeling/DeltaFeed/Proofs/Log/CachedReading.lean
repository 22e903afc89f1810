import DeltaFeed.Proofs.Log.Answers
import DeltaFeed.Proofs.Log.Directories

/-! A log that keeps what it read answers like one that read nothing yet, while its directory
grows, is trimmed, and the log is called, in any order. The versions that were deleted since the
log was opened or closed are those that are gone; every other thing that it keeps agrees with
the files.
-/

namespace DeltaFeed.Log

open Store (Tree Path)

-----------------------------------------------------------------------------------------
-- Changes of the directory
-----------------------------------------------------------------------------------------

variable {before after : Tree} {place : Place} {provider : String} {gone : Int → Prop}
  {log : CommitLog}

/-- (Below tree place gone) says that what is gone are versions below one that is there, and
none of those that are there.
-/
structure Below (tree : Tree) (place : Place) (gone : Int → Prop) : Prop where
  nonneg : ∀ v, gone v → 0 ≤ v
  below : ∀ v, gone v → ∃ u ∈ committed tree place, v < u
  apart : ∀ v ∈ committed tree place, ¬gone v

/-- Nothing is gone of a log that is there from version 0 on. -/
theorem Below.not_gone {tree : Tree} {n : Nat} (h : Below tree place gone)
    (contiguous : Contiguous tree place n) (v : Int)
    : ¬gone v := by
  intro isGone
  obtain ⟨u, member, lower⟩ := h.below v isGone
  obtain ⟨last, upTo, rfl⟩ := contiguous.mem_committed.mp member
  have nonneg := h.nonneg v isGone
  exact h.apart v (contiguous.mem_committed.mpr ⟨v.toNat, by omega, by omega⟩) isGone

/-- What a version records depends on its file alone. -/
theorem recorded_congr {v : Int}
    (same : after.find (place.file v) = before.find (place.file v))
    : recorded after place provider v = recorded before place provider v := by
  have loaded := load_congr same
  have modified := modifiedMillis_congr same
  simp only [recorded]
  rw [loaded, modified]

/-- The history of some versions depends on their files alone. -/
theorem historyOf_congr {versions : List Int}
    (same : ∀ v ∈ versions, after.find (place.file v) = before.find (place.file v))
    : historyOf after place provider versions = historyOf before place provider versions := by
  unfold historyOf
  exact congrArg History.ofRecorded
    (List.map_congr_left fun v member => recorded_congr (same v member))

/-- An added version was not among the others. -/
theorem Grows.not_mem {added : List Int} (h : Grows place before after added) {v : Int}
    (member : v ∈ committed before place)
    : v ∉ added :=
  fun isAdded => Int.lt_irrefl v (h.above v isAdded v member)

/-- Versions that are gone stay below those of the log when it grows. -/
theorem Below.grows {added : List Int} (h : Grows place before after added)
    (below : Below before place gone)
    : Below after place gone := by
  refine ⟨below.nonneg, fun v isGone => ?_, fun v member isGone => ?_⟩
  · obtain ⟨u, member, above⟩ := below.below v isGone
    exact ⟨u, h.listing ▸ List.mem_append_left _ member, above⟩
  · rw [h.listing] at member
    rcases List.mem_append.mp member with earlier | isAdded
    · exact below.apart v earlier isGone
    · obtain ⟨u, member, above⟩ := below.below v isGone
      exact absurd (h.above v isAdded u member) (by omega)

/-- A history that goes on in a log goes on in it after it grew. -/
theorem Known.grows {history : History} {added : List Int} (h : Grows place before after added)
    (known : Known before place provider history)
    : Known after place provider history := by
  obtain ⟨seen, more, split, above, rfl⟩ := known
  refine ⟨seen, more ++ added, by rw [h.listing, split, List.append_assoc], ?_, ?_⟩
  · intro v member u isSeen
    rcases List.mem_append.mp member with later | isAdded
    · exact above v later u isSeen
    · exact h.above v isAdded u (split ▸ List.mem_append_left _ isSeen)
  · refine (historyOf_congr fun v isSeen => h.untouched v ?_).symm
    exact h.not_mem (split ▸ List.mem_append_left _ isSeen)

/-- A log that agrees with its files agrees with them after more were added. -/
theorem Agrees.grows {added : List Int} (h : Grows place before after added)
    (agrees : Agrees before place provider gone log)
    : Agrees after place provider gone log := by
  obtain ⟨history, keeps, standing⟩ := agrees
  refine ⟨history, ⟨keeps.place_eq, keeps.provider_eq, keeps.history_eq, ?_⟩, ?_⟩
  · intro v found kept
    refine (keeps.cache kept).imp_right fun loaded => ?_
    obtain ⟨node, isThere⟩ := exists_find_of_load loaded
    have old : v ∉ added := fun isAdded => h.absent v isAdded node isThere
    rw [load_congr (h.untouched v old), loaded]
  · exact standing.imp_left (·.grows h)

/-- (goneAfter tree place first gone) holds of what is gone once a log is trimmed. -/
def goneAfter (tree : Tree) (place : Place) (first : Int) (gone : Int → Prop) (v : Int) : Prop :=
  gone v ∨ (v ∈ committed tree place ∧ v < first)

/-- When a log is trimmed the versions that are dropped are below the others too. -/
theorem Below.trims {first : Int} (h : Trims place before after first)
    (below : Below before place gone)
    : Below after place (goneAfter before place first gone) := by
  have stays {u : Int} (member : u ∈ committed before place) (from_ : first ≤ u)
      : u ∈ committed after place := by
    rw [h.listing]
    exact List.mem_filter.mpr ⟨member, by simpa using from_⟩
  constructor
  · intro v isGoneNow
    rcases isGoneNow with isGone | ⟨deleted, _⟩
    · exact below.nonneg v isGone
    · exact committed_nonneg deleted
  · intro v isGoneNow
    rcases isGoneNow with isGone | ⟨_, deleted⟩
    · obtain ⟨u, member, above⟩ := below.below v isGone
      by_cases from_ : first ≤ u
      · exact ⟨u, stays member from_, above⟩
      · exact ⟨first, stays h.remains (Int.le_refl first), by omega⟩
    · exact ⟨first, stays h.remains (Int.le_refl first), deleted⟩
  · intro v member
    rw [h.listing, List.mem_filter] at member
    intro isGoneNow
    rcases isGoneNow with isGone | ⟨_, deleted⟩
    · exact below.apart v member.1 isGone
    · have := member.2
      simp only [decide_eq_true_eq] at this
      omega

/-- The history of a log that is trimmed goes on in what remains, or begins with a version that is
gone.
-/
theorem Known.trims {history : History} {first : Int} (h : Trims place before after first)
    (known : Known before place provider history)
    : Known after place provider history ∨ Lost (goneAfter before place first gone) history := by
  obtain ⟨seen, more, split, above, rfl⟩ := known
  cases seen with
  | nil => exact Or.inl (known_empty after place provider)
  | cons begun rest =>
      by_cases deleted : begun < first
      · have versions
            : (historyOf before place provider (begun :: rest)).commits.map (·.version)
              = begun :: rest :=
          historyOf_versions _
        obtain ⟨commit, commits, begins, same, _⟩ := List.map_eq_cons_iff.mp versions
        apply Or.inr
        refine ⟨commit, by rw [begins]; rfl, Or.inr ⟨?_, same ▸ deleted⟩⟩
        rw [same, split]
        exact List.mem_append_left _ List.mem_cons_self
      · -- nothing lies below the version that the history begins with
        have sorted := committed_sorted before place
        rw [split] at sorted
        have all : ∀ v ∈ committed before place, first ≤ v := by
          intro v member
          rw [split, List.cons_append] at member
          rcases List.mem_cons.mp member with rfl | later
          · omega
          · have := (List.pairwise_cons.mp sorted).1 v later
            omega
        refine Or.inl ⟨begun :: rest, more, ?_, above, ?_⟩
        · rw [h.listing, ← split]
          exact List.filter_eq_self.mpr fun v member => by simpa using all v member
        · refine (historyOf_congr fun v isSeen => h.untouched v fun member => ?_).symm
          exact all v member

/-- A log that agrees with its files agrees with those that remain when it is trimmed. -/
theorem Agrees.trims {first : Int} (h : Trims place before after first)
    (agrees : Agrees before place provider gone log)
    : Agrees after place provider (goneAfter before place first gone) log := by
  obtain ⟨history, keeps, standing⟩ := agrees
  refine ⟨history, ⟨keeps.place_eq, keeps.provider_eq, keeps.history_eq, ?_⟩, ?_⟩
  · intro v found kept
    rcases keeps.cache kept with isGone | loaded
    · exact Or.inl (Or.inl isGone)
    · by_cases deleted : v ∈ committed before place ∧ v < first
      · exact Or.inl (Or.inr deleted)
      · have stays : v ∈ committed before place → first ≤ v := fun member =>
          Int.not_lt.mp fun lower => deleted ⟨member, lower⟩
        rw [load_congr (h.untouched v stays)]
        exact Or.inr loaded
  · rcases standing with known | ⟨begun, begins, isGone⟩
    · exact known.trims h
    · exact Or.inr ⟨begun, begins, Or.inl isGone⟩

-----------------------------------------------------------------------------------------
-- Calls of a log
-----------------------------------------------------------------------------------------

/-- What can be asked of a log. -/
inductive Call : Type → Type where
  | commits : Call (List Commit)
  | activeCommit (time : Time.Timestamp) (inclusive : Bool) : Call Commit
  | commitAt (version : Int) : Call Commit
  | metadataAt (version : Int) : Call Metadata
  | actions (version : Int) : Call (List Action)
  | latest : Call Int
  | listing (version : Int) (table : Table) : Call Listing
  | close : Call Unit

namespace Call

variable {α : Type}

def run (tree : Tree) : Call α → Op CommitLog α
  | commits => CommitLog.commits tree
  | activeCommit time inclusive => CommitLog.activeCommit tree time inclusive
  | commitAt version => CommitLog.commitAt tree version
  | metadataAt version => CommitLog.metadataAt tree version
  | actions version => CommitLog.actions tree version
  | latest => CommitLog.latest tree
  | listing version table => CommitLog.listing tree version table
  | close => CommitLog.close

/-- (call.told tree place provider) is what the files of a log tell when they are asked. -/
def told (tree : Tree) (place : Place) (provider : String) : Call α → Except Failure α
  | commits => History.commits <$> historyAt tree place provider
  | activeCommit time inclusive => do
    let utc ← time.toUtc
    activeIn (← historyAt tree place provider) utc inclusive
  | commitAt version => historyAt tree place provider >>= (·.commitAt version)
  | metadataAt version => do
    let _ ← historyAt tree place provider >>= (·.commitAt version)
    historyAt tree place provider >>= (·.metadataAt version)
  | actions version => actionsAt tree place version
  | latest => latestVersion tree place
  | listing version table => CommitLog.listingAt tree place version table
  | close => return ()

/-- (call.asksForVersion) holds of the calls about one version, which are answered from what is
kept where the version is among it, whether or not its file is still there.
-/
def asksForVersion : Call α → Bool
  | commitAt _ | metadataAt _ | actions _ => true
  | _ => false

/-- (call.forgets) holds of the call that makes a log forget what it keeps. -/
def forgets : Call α → Bool
  | close => true
  | _ => false

end Call

section Answers

variable {α : Type} {tree : Tree} {call : Call α}

/-- A log that forgets all it knows agrees with its files, and nothing is gone. -/
theorem Agrees.forget (h : Agrees tree place provider gone log)
    : Agrees tree place provider (fun _ => False) log.forget := by
  obtain ⟨history, keeps, _⟩ := h
  refine ⟨{}, ⟨keeps.place_eq, keeps.provider_eq, rfl, ?_⟩, Or.inl (known_empty _ _ _)⟩
  intro v found kept
  cases kept

/-- A version that a log has at hand is answered from there, and any other after a refresh. -/
theorem Agrees.commitAt_yields (apart : ∀ v ∈ committed tree place, ¬gone v)
    (sound : SoundLog tree place provider) (v : Int) (h : Agrees tree place provider gone log)
    : (CommitLog.commitAt tree v).Yields log
        (if (log.history.positions.lookup v).isNone
          then historyAt tree place provider >>= (·.commitAt v)
          else log.history.commitAt v)
        (Agrees tree place provider gone) := by
  apply Op.Yields.bind_current
  split
  case isTrue =>
    refine CommitLog.refreshed_yields (·.commitAt v) apart sound h (fun _ _ _ agrees => agrees) ?_
    intro history log told keeps agrees
    rw [keeps.history_eq]
    exact .ofResult _ agrees
  case isFalse => exact .bind_current (.ofResult _ h)

/-- A log goes on to agree with its files when it is asked for metadata. -/
theorem Agrees.metadataAt_preserves (apart : ∀ v ∈ committed tree place, ¬gone v)
    (sound : SoundLog tree place provider) (v : Int)
    : (CommitLog.metadataAt tree v).Preserves (Agrees tree place provider gone) :=
  .bind (fun _ h => (h.commitAt_yields apart sound v).leaves)
    fun _ => .bind (fun _ h => h) fun _ => .ofResult _

/-- A log goes on to agree with its files when it is asked for actions. -/
theorem Agrees.actions_preserves (v : Int)
    : (CommitLog.actions tree v).Preserves (Agrees tree place provider gone) := by
  refine .bind ?_ fun _ => .ofResult _
  intro log agrees
  rcases agrees with ⟨history, keeps, standing⟩
  exact ⟨history, CommitLog.payloads_preserves log keeps, standing⟩

/-- A log goes on to agree with its files when it is asked for a listing. -/
theorem Agrees.listing_preserves (apart : ∀ v ∈ committed tree place, ¬gone v) (v : Int)
    (table : Table)
    : (CommitLog.listing tree v table).Preserves (Agrees tree place provider gone) := by
  intro log agrees
  rcases agrees with ⟨history, keeps, standing⟩
  exact ⟨history, (CommitLog.listing_yields apart table keeps).leaves, standing⟩

/-- Every call that does not make a log forget leaves it in agreement with its files. -/
theorem Agrees.run (apart : ∀ v ∈ committed tree place, ¬gone v)
    (sound : SoundLog tree place provider) (keeps : call.forgets = false)
    (h : Agrees tree place provider gone log)
    : Agrees tree place provider gone ((call.run tree).run log).state := by
  cases call with
  | commits => exact (CommitLog.commits_yields apart sound h).leaves
  | activeCommit time inclusive =>
      exact (CommitLog.activeCommit_yields apart sound h time inclusive).leaves
  | commitAt v => exact (h.commitAt_yields apart sound v).leaves
  | metadataAt v => exact Agrees.metadataAt_preserves apart sound v log h
  | actions v => exact Agrees.actions_preserves v log h
  | latest => exact (CommitLog.latest_yields h).leaves
  | listing v table => exact Agrees.listing_preserves apart v table log h
  | close => cases keeps

/-- A log that agrees with its files answers what they tell. -/
theorem Agrees.answers (call : Call α) (apart : ∀ v ∈ committed tree place, ¬gone v)
    (sound : SoundLog tree place provider)
    (intact : call.asksForVersion = true → ∀ v, ¬gone v)
    (h : Agrees tree place provider gone log)
    : ((call.run tree).run log).result = call.told tree place provider := by
  cases call with
  | commits => exact (CommitLog.commits_yields apart sound h).result_eq
  | activeCommit time inclusive =>
      exact (CommitLog.activeCommit_yields apart sound h time inclusive).result_eq
  | commitAt v => exact (CommitLog.commitAt_yields (intact rfl) sound h).result_eq
  | metadataAt v => exact (CommitLog.metadataAt_yields (intact rfl) sound h).result_eq
  | actions v =>
      obtain ⟨history, keeps, _⟩ := h
      exact (CommitLog.actions_yields (intact rfl v) keeps).result_eq
  | latest => exact (CommitLog.latest_yields h).result_eq
  | listing v table =>
      obtain ⟨history, keeps, _⟩ := h
      exact (CommitLog.listing_yields apart table keeps).result_eq
  | close => rfl

end Answers

-----------------------------------------------------------------------------------------
-- Runs
-----------------------------------------------------------------------------------------

/-- (Reaches settings base tree log intact) says that a log that was opened at a base is in some
state, after its directory grew, was trimmed, and the log was called, in any order, and that its
directory looks as in a tree now. The log is intact if no file was deleted since it was opened or
closed last. The logs are sound throughout.
-/
inductive Reaches (settings : Settings) (base : Path) : Tree → CommitLog → Bool → Prop where
  | opened (tree : Tree)
    : SoundLog tree (.ofBase settings base) settings.defaultProvider
      → Reaches settings base tree (.ofBase settings base) true
  | grown {before after : Tree} {log : CommitLog} {intact : Bool} (added : List Int)
    : Reaches settings base before log intact
      → Grows (.ofBase settings base) before after added
      → SoundLog after (.ofBase settings base) settings.defaultProvider
      → Reaches settings base after log intact
  | trimmed {before after : Tree} {log : CommitLog} {intact : Bool} (first : Int)
    : Reaches settings base before log intact
      → Trims (.ofBase settings base) before after first
      → SoundLog after (.ofBase settings base) settings.defaultProvider
      → Reaches settings base after log false
  | called {tree : Tree} {log : CommitLog} {intact : Bool} {α : Type} (call : Call α)
    : Reaches settings base tree log intact
      → Reaches settings base tree ((call.run tree).run log).state (intact || call.forgets)

/-- What holds throughout a run: the log agrees with its files apart from what is gone, which lies
below a version that is there, and nothing is gone while the log is intact.
-/
structure Coherent (settings : Settings) (base : Path) (tree : Tree) (log : CommitLog)
    (intact : Bool)
    : Prop where
  sound : SoundLog tree (.ofBase settings base) settings.defaultProvider
  agrees
    : ∃ gone,
        Below tree (.ofBase settings base) gone
        ∧ (intact = true → ∀ v, ¬gone v)
        ∧ Agrees tree (.ofBase settings base) settings.defaultProvider gone log

section Runs

variable {settings : Settings} {base : Path} {tree : Tree} {intact : Bool} {α : Type}

/-- If nothing is gone then nothing that is gone is in the way. -/
theorem below_nothing (tree : Tree) (place : Place)
    : Below tree place fun _ => False :=
  ⟨fun _ isGone => isGone.elim, fun _ isGone => isGone.elim, fun _ _ isGone => isGone⟩

/-- A log of which nothing was read agrees with any files. -/
theorem agrees_ofBase (settings : Settings) (base : Path) (tree : Tree) (gone : Int → Prop)
    : Agrees tree (.ofBase settings base) settings.defaultProvider gone
        (.ofBase settings base) := by
  refine ⟨{}, ⟨rfl, rfl, rfl, ?_⟩, Or.inl (known_empty _ _ _)⟩
  intro v found kept
  cases kept

/-- A coherent log stays so through a call, and is intact again if the call forgets what is known.
-/
theorem Coherent.called (h : Coherent settings base tree log intact) (call : Call α)
    : Coherent settings base tree ((call.run tree).run log).state
        (intact || call.forgets) := by
  obtain ⟨sound, gone, below, stays, agrees⟩ := h
  cases forgets : call.forgets with
  | false =>
      rw [Bool.or_false]
      exact ⟨sound, gone, below, stays, agrees.run below.apart sound forgets⟩
  | true =>
      have same : ((call.run tree).run log).state = log.forget := by
        cases call <;> first | rfl | cases forgets
      rw [same]
      exact ⟨sound, _, below_nothing _ _, fun _ _ isGone => isGone, agrees.forget⟩

/-- A log is coherent in each state that it reaches, by induction on what happened to it. -/
theorem Reaches.coherent (h : Reaches settings base tree log intact)
    : Coherent settings base tree log intact := by
  induction h with
  | opened tree sound =>
      exact ⟨sound, _, below_nothing _ _, fun _ _ isGone => isGone, agrees_ofBase _ _ _ _⟩
  | grown added _ grows sound ih =>
      obtain ⟨_, gone, below, stays, agrees⟩ := ih
      exact ⟨sound, gone, below.grows grows, stays, agrees.grows grows⟩
  | trimmed first _ trims sound ih =>
      obtain ⟨_, gone, below, _, agrees⟩ := ih
      exact ⟨sound, _, below.trims trims, by simp, agrees.trims trims⟩
  | called call _ ih => exact ih.called call

/-- (Follows settings base tree log) says that a log that was opened at a base keeps, of the
versions that are there, what their files say. A log that is newly opened does, and so does every
log in a run.
-/
def Follows (settings : Settings) (base : Path) (tree : Tree) (log : CommitLog) : Prop :=
  ∃ gone,
    Below tree (.ofBase settings base) gone
    ∧ Agrees tree (.ofBase settings base) settings.defaultProvider gone log

/-- A log that is newly opened follows its directory. -/
theorem follows_ofBase (settings : Settings) (base : Path) (tree : Tree)
    : Follows settings base tree (.ofBase settings base) :=
  ⟨_, below_nothing _ _, agrees_ofBase _ _ _ _⟩

/-- A log follows its directory in each state that it reaches. -/
theorem Reaches.follows (h : Reaches settings base tree log intact)
    : Follows settings base tree log :=
  have ⟨gone, below, _, agrees⟩ := h.coherent.agrees
  ⟨gone, below, agrees⟩

/-- Whatever a log went through, it answers each call like a log that is newly opened on its
directory; calls about one version, as long as it is intact.
-/
theorem Reaches.answers_eq_ofBase (h : Reaches settings base tree log intact) (call : Call α)
    (kept : call.asksForVersion = true → intact = true)
    : ((call.run tree).run log).result
      = ((call.run tree).run (.ofBase settings base)).result := by
  obtain ⟨sound, gone, below, stays, agrees⟩ := h.coherent
  have cached := agrees.answers call below.apart sound fun asks => stays (kept asks)
  have fresh := (agrees_ofBase settings base tree fun _ => False).answers call
    (fun _ _ isGone => isGone) sound fun _ _ isGone => isGone
  rw [cached, fresh]

/-- The files of the sample log are sound. -/
theorem soundLog_sampleTree
    : SoundLog sampleTree topPlace "parquet" := by
  decide +kernel

def sampleTrimmed : Tree :=
  storeOf ((filesOf sampleStart ++ filesOf sampleRest).filter fun entry =>
    entry.1 ∉ [0].map (fileName topPlace.digits))

/-- The first file of the sample log is dropped. -/
theorem trims_sampleTrimmed
    : Trims topPlace sampleTree sampleTrimmed 1 :=
  trims_storeOf (by decide +kernel) (by decide +kernel) (by decide +kernel)

/-- A log that was read before and after it grew. -/
def sampleLog : CommitLog :=
  let first := (Call.commits.run (storeOf (filesOf sampleStart))).run (.ofBase {} topPlace.base)
  ((Call.commits.run sampleTree).run first.state).state

theorem reaches_sampleTrimmed
    : Reaches {} topPlace.base sampleTrimmed sampleLog false :=
  .trimmed 1
    (.called .commits
      (.grown (keys sampleRest)
        (.called .commits (.opened _ (by decide +kernel)))
        grows_sampleTree soundLog_sampleTree))
    trims_sampleTrimmed (by decide +kernel)

theorem answers_eq_ofBase_sampleTrimmed
    : ((Call.commits.run sampleTrimmed).run sampleLog).result
      = ((Call.commits.run sampleTrimmed).run (.ofBase {} topPlace.base)).result :=
  reaches_sampleTrimmed.answers_eq_ofBase .commits nofun

end Runs

end DeltaFeed.Log
