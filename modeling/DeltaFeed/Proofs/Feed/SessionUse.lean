import DeltaFeed.Proofs.Feed.Sessions

/-! The use of a session. Its versions are those that it was made with. The log is asked for the
actions of a version till it gives them once; from then on the session gives the same actions,
whatever becomes of the log and of the lists that callers hold.
-/

namespace DeltaFeed

namespace Log

-----------------------------------------------------------------------------------------
-- What a log is asked
-----------------------------------------------------------------------------------------

/-- What can be asked of a log. -/
inductive Request where
  | actions (version : Int)
  | activeCommit (time : Time.Timestamp) (inclusive : Bool)
  | latest
  | commitAt (version : Int)
  | metadataAt (version : Int)
  | close
deriving DecidableEq, Repr

variable {ρ α : Type}

/-- (noted request op) asks a log, and notes what it is asked. -/
def noted (request : Request) (op : Op ρ α) : Op (ρ × List Request) α := do
  .onSecond (.change (· ++ [request]))
  .onFirst op

/-- (reader.noting) is a log that notes what it is asked, in order. -/
def Reader.noting (reader : Reader ρ) : Reader (ρ × List Request) where
  actions version := noted (.actions version) (reader.actions version)
  activeCommit time inclusive :=
    noted (.activeCommit time inclusive) (reader.activeCommit time inclusive)
  latest := noted .latest reader.latest
  commitAt version := noted (.commitAt version) (reader.commitAt version)
  metadataAt version := noted (.metadataAt version) (reader.metadataAt version)
  close := noted .close reader.close

/-- A request is noted before it is made, so that it counts even if it fails. -/
theorem requests_noted (request : Request) (op : Op ρ α) (both : ρ × List Request)
    : ((noted request op).run both).state.2 = both.2 ++ [request] := by
  rw [noted, Op.run_bind_ok (a := ()) rfl]
  rfl

end Log

namespace Feed.Session

open Log (Reader Request)

variable {ρ : Type} {reader : Reader ρ} {log : ρ} {made session : Session} {v : Int}

/-- (requests reader log session version) is what a call for the actions of a version asks of a log.
-/
def requests (reader : Reader ρ) (log : ρ) (session : Session) (version : Int) : List Request :=
  ((Session.actions reader.noting version).run ((log, []), session)).state.1.2

/-- A call for the actions of a version is refused, or it gives what is kept, or it asks the log for
them; only then does the session change.
-/
theorem actions_cases (reader : Reader ρ) (log : ρ) (session : Session) (v : Int)
    : let outcome := (Session.actions reader v).run (log, session)
      (session.contains v = false
          ∧ requests reader log session v = []
          ∧ outcome.result = .error (session.outside v)
          ∧ outcome.state.2 = session)
        ∨ (session.contains v = true
          ∧ ∃ found,
              session.fetched.lookup v = some found
              ∧ requests reader log session v = []
              ∧ outcome.result = .ok found
              ∧ outcome.state.2 = session)
        ∨ (session.contains v = true
          ∧ session.fetched.lookup v = none
          ∧ requests reader log session v = [.actions v]
          ∧ outcome.result = ((reader.actions v).run log).result
          ∧ outcome.state.2 = session.after v ((reader.actions v).run log).result) := by
  dsimp only
  cases inside : session.contains v with
  | false =>
      left
      rw [requests, actions_outside inside, actions_outside inside]
      exact ⟨rfl, rfl, rfl, rfl⟩
  | true =>
      right
      cases kept : session.fetched.lookup v with
      | some found =>
          left
          rw [requests, actions_kept inside kept, actions_kept inside kept]
          exact ⟨rfl, found, rfl, rfl, rfl, rfl⟩
      | none =>
          right
          have read
              : (Session.actions reader v).Yields (log, session) _ (· = _) :=
            actions_read inside kept
          have noted
              : (Session.actions reader.noting v).Yields ((log, []), session) _ (· = _) :=
            actions_read inside kept
          refine ⟨rfl, rfl, ?_, read.result_eq, congrArg Prod.snd read.leaves⟩
          rw [requests, noted.leaves]
          exact Log.requests_noted _ _ _

/-- A call that fails leaves the session as it is. -/
theorem session_of_error {failure : Failure}
    (failed : ((Session.actions reader v).run (log, session)).result = .error failure)
    : ((Session.actions reader v).run (log, session)).state.2 = session := by
  rcases actions_cases reader log session v with
    ⟨_, _, _, same⟩ | ⟨_, _, _, _, _, same⟩ | ⟨_, _, _, ended, same⟩
  · exact same
  · exact same
  · rw [same, ← ended, failed]
    rfl

-----------------------------------------------------------------------------------------
-- Turns
-----------------------------------------------------------------------------------------

/-- A list that a caller was given. -/
inductive Handed where
  | actions (list : List Action)
  | versions (list : List Int)

/-- What callers do. A call for actions finds a log of its own, as the log may have changed
since the call before it, and a caller may write into the lists that were handed out.
-/
inductive Turn (ρ : Type) where
  | actions (reader : Reader ρ) (log : ρ) (version : Int)
  | contains (version : Int)
  | versions
  | overwrite (place : Nat) (list : Handed)

/-- A call for the actions of a version: the log that it found, what it asked of the log, and how it
ended.
-/
structure Fetch (ρ : Type) where
  reader : Reader ρ
  log : ρ
  version : Int
  requests : List Request
  result : Except Failure (List Action)

/-- A session in use, with the lists that were handed out and the calls for actions that were
made, in order.
-/
structure Use (ρ : Type) where
  session : Session
  handed : List Handed := []
  fetches : List (Fetch ρ) := []

namespace Use

def fetch (use : Use ρ) (reader : Reader ρ) (log : ρ) (version : Int) : Fetch ρ where
  reader := reader
  log := log
  version := version
  requests := requests reader log use.session version
  result := ((Session.actions reader version).run (log, use.session)).result

def take (use : Use ρ) : Turn ρ → Use ρ
  | .actions reader log version =>
    let fetch := use.fetch reader log version
    { session := ((Session.actions reader version).run (log, use.session)).state.2
      handed := use.handed ++ (fetch.result.toOption.map Handed.actions).toList
      fetches := use.fetches ++ [fetch] }
  | .contains _ => use
  | .versions =>
    { use with
        handed := use.handed ++ (use.session.listed.toOption.map Handed.versions).toList }
  | .overwrite place list => { use with handed := use.handed.set place list }

end Use

/-- (used made turns) is a session that was made and then used. -/
def used (made : Session) (turns : List (Turn ρ)) : Use ρ :=
  turns.foldl Use.take { session := made }

/-- (firstGiven? version fetches) are the actions of a version that were given first. -/
def firstGiven? (version : Int) (fetches : List (Fetch ρ)) : Option (List Action) :=
  fetches.findSome? fun fetch =>
    if fetch.version = version then fetch.result.toOption else none

/-- A later call gives actions first only if none before it gave any. -/
theorem firstGiven?_append (v : Int) (fetches : List (Fetch ρ)) (fetch : Fetch ρ)
    : firstGiven? v (fetches ++ [fetch])
      = (firstGiven? v fetches).or
          (if fetch.version = v then fetch.result.toOption else none) := by
  rw [firstGiven?, List.findSome?_append, List.findSome?_singleton, firstGiven?]

-----------------------------------------------------------------------------------------
-- Answers
-----------------------------------------------------------------------------------------

/-- (Told made before fetch) says how a session answers a call for the actions of a version
after some other calls: outside its versions it refuses without asking the log, and inside it
asks the log unless the actions were given before, and gives them again if they were.
-/
structure Told (made : Session) (before : List (Fetch ρ)) (fetch : Fetch ρ) : Prop where
  outside (absent : fetch.version ∉ made.versions)
    : fetch.requests = [] ∧ fetch.result = .error (made.outside fetch.version)
  asked (pending : fetch.version ∈ made.versions)
    (never : firstGiven? fetch.version before = none)
    : fetch.requests = [.actions fetch.version]
      ∧ fetch.result = ((fetch.reader.actions fetch.version).run fetch.log).result
  again {found : List Action} (pending : fetch.version ∈ made.versions)
    (given : firstGiven? fetch.version before = some found)
    : fetch.requests = [] ∧ fetch.result = .ok found

/-- (Holds made use) says that a session in use has the versions that it was made with, that it
keeps the actions that were given first, and that its calls were answered accordingly.
-/
structure Holds (made : Session) (use : Use ρ) : Prop where
  start : use.session.start = made.start
  latest : use.session.latest = made.latest
  cached (v : Int) : use.session.fetched.lookup v = firstGiven? v use.fetches
  told (before : List (Fetch ρ)) (fetch : Fetch ρ) (after : List (Fetch ρ))
    (split : use.fetches = before ++ fetch :: after)
    : Told made before fetch

/-- The test of a session for versions finds those that it has. -/
theorem contains_iff (session : Session) (v : Int)
    : session.contains v = true ↔ v ∈ session.versions := by
  rw [mem_versions, contains, Bool.and_eq_true, decide_eq_true_eq, decide_eq_true_eq]

/-- What is kept after a call is what was kept before, or else what the log gave. -/
theorem lookup_after {result : Except Failure (List Action)}
    (absent : session.fetched.lookup v = none) (w : Int)
    : (session.after v result).fetched.lookup w
      = (session.fetched.lookup w).or (if v = w then result.toOption else none) := by
  cases result with
  | error failure => simp [after, Except.toOption]
  | ok found =>
      rw [after, lookup_put]
      by_cases same : v = w
      · subst same
        simp [absent, Except.toOption]
      · simp [same, Ne.symm same]

namespace Holds

variable {use : Use ρ}

/-- A session in use contains the versions that it was made with. -/
theorem contains_eq (h : Holds made use) (v : Int)
    : use.session.contains v = made.contains v := by
  rw [contains, contains, h.start, h.latest]

/-- A session in use lists the versions that it was made with. -/
theorem listed_eq (h : Holds made use)
    : use.session.listed = made.listed := by
  rw [listed, listed, versions, versions, pending, pending, h.start, h.latest]

/-- A session in use refuses other versions with the message that it was made with. -/
theorem outside_eq (h : Holds made use) (v : Int)
    : use.session.outside v = made.outside v := by
  rw [outside, outside, h.start, h.latest]

/-- One more call is told after those before it. -/
theorem append (h : Holds made use) {fetch : Fetch ρ} {next : Session} {handed : List Handed}
    (told : Told made use.fetches fetch) (start : next.start = use.session.start)
    (latest : next.latest = use.session.latest)
    (cached : ∀ w, next.fetched.lookup w = firstGiven? w (use.fetches ++ [fetch]))
    : Holds made { session := next, handed, fetches := use.fetches ++ [fetch] } where
  start := start.trans h.start
  latest := latest.trans h.latest
  cached := cached
  told before other after (split : use.fetches ++ [fetch] = before ++ other :: after) := by
    rcases List.eq_nil_or_concat after with rfl | ⟨init, last, rfl⟩
    · obtain ⟨rfl, same⟩ := List.append_inj' split rfl
      obtain rfl := List.singleton_inj.mp same
      exact told
    · rw [List.concat_eq_append, ← List.cons_append, ← List.append_assoc] at split
      exact h.told before other init (List.append_inj' split rfl).1

/-- A call that leaves the session as it is tells no actions but those that were given first. -/
theorem cached_of_unchanged (h : Holds made use) {fetch : Fetch ρ}
    (given
      : ∀ found, fetch.result = .ok found → firstGiven? fetch.version use.fetches = some found)
    (w : Int)
    : use.session.fetched.lookup w = firstGiven? w (use.fetches ++ [fetch]) := by
  rw [h.cached, firstGiven?_append]
  split
  case isFalse => rw [Option.or_none]
  case isTrue same =>
    subst same
    cases ended : fetch.result with
    | error failure => exact (Option.or_none).symm
    | ok found =>
        rw [given found ended]
        rfl

/-- A call for actions is answered by what was given first, and by the log if nothing was. -/
theorem actions (h : Holds made use) (reader : Reader ρ) (log : ρ) (v : Int)
    : Holds made (use.take (.actions reader log v)) := by
  have inside : use.session.contains v = true ↔ v ∈ made.versions := by
    rw [h.contains_eq, Session.contains_iff]
  rcases actions_cases reader log use.session v with
    ⟨outside, requested, ended, same⟩ | ⟨pending, found, kept, requested, ended, same⟩
      | ⟨pending, kept, requested, ended, next⟩
  · have absent : v ∉ made.versions := by
      rw [← inside, outside]
      decide
    rw [h.outside_eq] at ended
    have told : Told made use.fetches (use.fetch reader log v) :=
      ⟨fun _ => ⟨requested, ended⟩, fun there => absurd there absent,
        fun there => absurd there absent⟩
    refine h.append told (congrArg Session.start same) (congrArg Session.latest same) fun w => ?_
    rw [same]
    refine h.cached_of_unchanged (fun found given => ?_) w
    cases ended.symm.trans given
  · have there : v ∈ made.versions := inside.mp pending
    have given : firstGiven? v use.fetches = some found := (h.cached v).symm.trans kept
    have told : Told made use.fetches (use.fetch reader log v) := by
      refine ⟨fun absent => absurd there absent, fun _ never => ?_, fun _ again => ?_⟩
      · cases given.symm.trans never
      · cases given.symm.trans again
        exact ⟨requested, ended⟩
    refine h.append told (congrArg Session.start same) (congrArg Session.latest same) fun w => ?_
    rw [same]
    refine h.cached_of_unchanged (fun other again => ?_) w
    cases ended.symm.trans again
    exact given
  · have there : v ∈ made.versions := inside.mp pending
    have never : firstGiven? v use.fetches = none := (h.cached v).symm.trans kept
    have told : Told made use.fetches (use.fetch reader log v) := by
      refine ⟨fun absent => absurd there absent, fun _ _ => ⟨requested, ended⟩, fun _ again => ?_⟩
      cases never.symm.trans again
    obtain ⟨sameStart, sameLatest⟩ :=
      after_versions use.session v ((reader.actions v).run log).result
    refine h.append told ((congrArg Session.start next).trans sameStart)
      ((congrArg Session.latest next).trans sameLatest) fun w => ?_
    rw [next, lookup_after kept, h.cached, firstGiven?_append, Use.fetch, ended]

/-- Whatever a caller does, a session in use goes on to hold. -/
theorem take (h : Holds made use) (turn : Turn ρ)
    : Holds made (use.take turn) := by
  cases turn with
  | actions reader log v => exact h.actions reader log v
  | contains v => exact h
  | versions => exact ⟨h.start, h.latest, h.cached, h.told⟩
  | overwrite place list => exact ⟨h.start, h.latest, h.cached, h.told⟩

/-- A session in use holds after any turns, by induction on them. -/
theorem foldl_take (h : Holds made use) (turns : List (Turn ρ))
    : Holds made (turns.foldl Use.take use) := by
  induction turns generalizing use with
  | nil => exact h
  | cons turn rest ih => exact ih (h.take turn)

end Holds

/-- A session keeps nothing when it is made. -/
theorem holds_made (start latest : Int)
    : Holds { start, latest } ({ session := { start, latest } } : Use ρ) where
  start := rfl
  latest := rfl
  cached _ := rfl
  told before fetch after split := by cases before <;> cases split

/-- (Answers made use) says how a session in use answers. It contains exactly the versions that
it was made with, and these are what it lists, unless they are too many to be listed. Its calls
for actions were answered as is told of each of them, and a call that fails leaves it as it is.
-/
structure Answers (made : Session) (use : Use ρ) : Prop where
  contains_iff (v : Int) : use.session.contains v = true ↔ v ∈ made.versions
  fixed : use.session.listed = made.listed
  listed (few : made.pending ≤ maxListed) : use.session.listed = .ok made.versions
  told (before : List (Fetch ρ)) (fetch : Fetch ρ) (after : List (Fetch ρ))
    (split : use.fetches = before ++ fetch :: after)
    : Told made before fetch
  cached (v : Int) : use.session.fetched.lookup v = firstGiven? v use.fetches
  failed (reader : Reader ρ) (log : ρ) (v : Int) (failure : Failure)
    (ended : (use.fetch reader log v).result = .error failure)
    : (use.take (.actions reader log v)).session = use.session

/-- Whatever callers do with a session, it has the versions that it was made with, and it gives the
actions of a version as the log gave them first.
-/
theorem answers_used (start latest : Int) (turns : List (Turn ρ))
    : Answers { start, latest } (used { start, latest } turns) := by
  have h : Holds { start, latest } (used { start, latest } turns) :=
    (holds_made start latest).foldl_take turns
  refine ⟨fun v => ?_, h.listed_eq, fun few => ?_, h.told, h.cached,
    fun _ _ _ _ => session_of_error⟩
  · rw [h.contains_eq, contains_iff]
  · have countable : maxListed ≤ maxCount := by
      decide
    rw [h.listed_eq, Session.listed, if_neg (by omega), if_neg (by omega)]

end Feed.Session

end DeltaFeed
