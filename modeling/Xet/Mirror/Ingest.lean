import Xet.Mirror.Sections

/-! Ingestion of files by the mirror. Requests for a file meet in a group that runs one function at a time for
each text; the function of a file finds its task or its record, or starts a task, which runs on its own until it
has recorded what became of the file. -/
namespace Xet.Mirror
open Wire Text List Function Table

inductive Result where
  | task (t : Task)
  | entry (e : FileEntry)

inductive Flight where
  | begun (key src : ResolveKey)
  | preparing (t : Task)
  | returning (key src : ResolveKey) (result : Result)
  | branch (key : ResolveKey)

/-- What a caller with a key was given by a function that ran for a source. -/
structure Answer where
  key : ResolveKey
  src : ResolveKey
  result : Result

structure Ingest where
  table : Table
  flights : Bytes → Option Flight
  /-- The callers that wait, by their keys. -/
  callers : List ResolveKey
  running : List Task
  /-- The tasks that have recorded what became of them, and those of them whose end is known to all. -/
  recorded : List (Task × FileEntry)
  closed : List (Task × FileEntry)
  answers : List Answer
  /-- The records that a key has had. -/
  seen : ResolveKey → FileEntry → Prop

def SourceOf (key src : ResolveKey) : Prop := src = key ∨ ∃ rev, isCommit rev = false ∧ src = { key with rev }

def branchFlight (key : ResolveKey) : Bytes := ascii "branch" ++ 0 :: key.string

namespace Ingest

def empty : Ingest := ⟨.empty, fun _ => none, [], [], [], [], [], fun _ _ => False⟩

def withTable (s : Ingest) (table : Table) : Ingest :=
  { s with table, seen := fun k e => s.seen k e ∨ table.entries k = some e }

def setFlight (s : Ingest) (text : Bytes) (f : Option Flight) : Ingest :=
  { s with flights := update s.flights text f }

end Ingest

/-- Sections outside of the functions of files and of the tasks: requests, branch pins, drops and sweeps. -/
inductive Quiet (table : Table) : Table → Prop
  | lookup (key src : ResolveKey) : Quiet table (table.lookup key src).2
  | branchState (key : ResolveKey) (now : Nat) : Quiet table (table.branchState key now)
  | branchFail (key : ResolveKey) (now : Nat) (notFound : Bool) : Quiet table (table.recordFailure key now notFound [])
  | branchPin (key : ResolveKey) (prev : Option Nat) : Quiet table (table.retire key prev)
  | dropEntry (key : ResolveKey) (e : FileEntry) : Quiet table (table.dropEntry key e)
  | load {manifest : List (ResolveKey × FileEntry)} (commits : ∀ p ∈ manifest, isCommit p.1.rev = true) :
      Quiet table (Table.load manifest table)

inductive IngestStep (s : Ingest) : Ingest → Prop
  /-- A caller meets the function that runs for its key, or starts one. -/
  | join {key : ResolveKey} {f : Flight} (held : Held key) (there : s.flights key.string = some f) :
      IngestStep s { s with callers := key :: s.callers }
  | start {key src : ResolveKey} (held : Held key) (commit : isCommit key.rev = true) (source : SourceOf key src)
      (free : s.flights key.string = none) :
      IngestStep s { s.setFlight key.string (some (.begun key src)) with callers := key :: s.callers }
  | leave (key : ResolveKey) : IngestStep s { s with callers := s.callers.erase key }
  /-- The first section of a function: there is a task, a record that answers, or nothing. -/
  | found {text : Bytes} {key src : ResolveKey} {t : Task} (here : s.flights text = some (.begun key src))
      (there : s.table.tasks key = some t) :
      IngestStep s ((s.withTable (s.table.lookup key src).2).setFlight text (some (.returning key src (.task t))))
  | known {text : Bytes} {key src : ResolveKey} {e : FileEntry} {now : Nat}
      (here : s.flights text = some (.begun key src)) (free : s.table.tasks key = none)
      (looked : (s.table.lookup key src).1 = some e) (answers : e.state = .ready ∨ e.inBackoff now = true) :
      IngestStep s ((s.withTable (s.table.lookup key src).2).setFlight text (some (.returning key src (.entry e))))
  | prepare {text : Bytes} {key src : ResolveKey} {id now : Nat} (here : s.flights text = some (.begun key src))
      (free : s.table.tasks key = none)
      (due : ∀ e, (s.table.lookup key src).1 = some e → e.state ≠ .ready ∧ e.inBackoff now = false) :
      IngestStep s ((s.withTable (s.table.lookup key src).2).setFlight text
        (some (.preparing ⟨id, key, src, ((s.table.lookup key src).2.entries src).map FileEntry.id⟩)))
  /-- The probe or the spool fails, the content is there already, or the task is started. -/
  | refused {text : Bytes} {t : Task} (here : s.flights text = some (.preparing t)) (pinned : Bool) (now : Nat)
      (notFound : Bool) :
      IngestStep s ((s.withTable (s.table.failTask t pinned now notFound)).setFlight text
        (some (.returning t.key t.src (.entry (s.table.taskFailure t pinned now notFound)))))
  | stored {text : Bytes} {t : Task} (here : s.flights text = some (.preparing t)) (e : FileEntry)
      {manifest : List (ResolveKey × FileEntry)} (commits : ∀ p ∈ manifest, isCommit p.1.rev = true) :
      IngestStep s ((s.withTable (s.table.publish t e manifest)).setFlight text
        (some (.returning t.key t.src (.entry { e with state := .ready }))))
  | register {text : Bytes} {t : Task} (here : s.flights text = some (.preparing t)) :
      IngestStep s { (s.withTable (s.table.setTask t.key (some t))).setFlight text
        (some (.returning t.key t.src (.task t))) with running := t :: s.running }
  /-- The function returns to everybody who met it. -/
  | answer {text : Bytes} {key src : ResolveKey} {result : Result}
      (here : s.flights text = some (.returning key src result)) :
      IngestStep s { s.setFlight text none with
        callers := s.callers.filter fun k => k.string ≠ text
        answers := (s.callers.filter fun k => k.string = text).map (⟨·, src, result⟩) ++ s.answers }
  /-- A task ends. -/
  | publish {t : Task} (member : t ∈ s.running) (e : FileEntry) {manifest : List (ResolveKey × FileEntry)}
      (commits : ∀ p ∈ manifest, isCommit p.1.rev = true) :
      IngestStep s { s.withTable (s.table.publish t e manifest) with
        running := s.running.erase t
        recorded := (t, { e with state := .ready }) :: s.recorded }
  | fail {t : Task} (member : t ∈ s.running) (pinned : Bool) (now : Nat) (notFound : Bool) :
      IngestStep s { s.withTable (s.table.failTask t pinned now notFound) with
        running := s.running.erase t
        recorded := (t, s.table.taskFailure t pinned now notFound) :: s.recorded }
  | close {p : Task × FileEntry} (member : p ∈ s.recorded) :
      IngestStep s { s with recorded := s.recorded.erase p, closed := p :: s.closed }
  /-- Branches are looked up by functions of the same group. -/
  | branchStart (key : ResolveKey) (free : s.flights (branchFlight key) = none) :
      IngestStep s (s.setFlight (branchFlight key) (some (.branch key)))
  | branchEnd {text : Bytes} {key : ResolveKey} (here : s.flights text = some (.branch key)) :
      IngestStep s (s.setFlight text none)
  | quiet {table : Table} (quiet : Quiet s.table table) : IngestStep s (s.withTable table)

inductive Ingest.Reached : Ingest → Prop
  | empty : Reached .empty
  | step {s s' : Ingest} : Reached s → IngestStep s s' → Reached s'

/-- A task of the key, a ready record of it, or a failure of it or of its source. -/
def Result.Suits (seen : ResolveKey → FileEntry → Prop) (key src : ResolveKey) : Result → Prop
  | .task t => t.key = key
  | .entry e => (e.state = .ready ∧ seen key e) ∨ (e.state = .failed ∧ (seen key e ∨ seen src e))

/-- A function runs under the text of its key, and no task of a key runs while one is prepared. -/
def Flight.Fits (s : Ingest) (text : Bytes) : Flight → Prop
  | .begun key src => text = key.string ∧ Held key ∧ isCommit key.rev = true ∧ SourceOf key src
  | .preparing t => text = t.key.string ∧ Held t.key ∧ isCommit t.key.rev = true ∧ SourceOf t.key t.src ∧
      s.table.tasks t.key = none
  | .returning key src result => text = key.string ∧ Held key ∧ SourceOf key src ∧ result.Suits s.seen key src
  | .branch key => text = branchFlight key

structure Ingest.Inv (s : Ingest) : Prop where
  registered : ∀ t ∈ s.running, s.table.tasks t.key = some t
  owned : ∀ k t, s.table.tasks k = some t → t.key = k ∧ t ∈ s.running
  distinct : s.running.Nodup
  commits : ∀ t ∈ s.running, isCommit t.key.rev = true
  flights : ∀ text f, s.flights text = some f → f.Fits s text
  callers : ∀ k ∈ s.callers, Held k
  pinned : s.table.Pinned
  noted : ∀ k e, s.table.entries k = some e → s.seen k e
  answers : ∀ a ∈ s.answers, SourceOf a.key a.src ∧ a.result.Suits s.seen a.key a.src
  recorded : ∀ p ∈ s.recorded, s.seen p.1.key p.2
  closed : ∀ p ∈ s.closed, s.seen p.1.key p.2

section
variable {s : Ingest}

theorem Result.Suits.mono {seen seen' : ResolveKey → FileEntry → Prop} {key src : ResolveKey} {result : Result}
    (suits : result.Suits seen key src) (more : ∀ k e, seen k e → seen' k e) : result.Suits seen' key src := by
  cases result with
  | task t => exact suits
  | entry e =>
    rcases suits with ⟨ready, own⟩ | ⟨failed, own | source⟩
    · exact .inl ⟨ready, more _ _ own⟩
    · exact .inr ⟨failed, .inl (more _ _ own)⟩
    · exact .inr ⟨failed, .inr (more _ _ source)⟩

theorem Flight.Fits.withTable {text : Bytes} {f : Flight} (fits : f.Fits s text) {table : Table}
    (free : ∀ t, f = .preparing t → table.tasks t.key = none) : f.Fits (s.withTable table) text := by
  cases f with
  | begun key src => exact fits
  | preparing t =>
    obtain ⟨same, held, commit, source, -⟩ := fits
    exact ⟨same, held, commit, source, free t rfl⟩
  | returning key src result =>
    obtain ⟨same, held, source, suits⟩ := fits
    exact ⟨same, held, source, suits.mono fun _ _ => Or.inl⟩
  | branch key => exact fits

theorem Quiet.tasks {before table : Table} (quiet : Quiet before table) : table.tasks = before.tasks := by
  cases quiet with
  | lookup key src => exact lookup_tasks _ _ _
  | branchState key now => exact branchState_tasks _ _ _
  | branchFail key now notFound => exact recordFailure_tasks _ _ _ _ _
  | branchPin key prev => exact retire_tasks _ _ _
  | dropEntry key e => exact dropEntry_tasks _ _ _
  | load commits => exact load_tasks _ _

theorem Quiet.pinned {before table : Table} (quiet : Quiet before table) (pinned : before.Pinned) : table.Pinned := by
  cases quiet with
  | lookup key src => exact pinned.lookup key src
  | branchState key now => exact pinned.branchState key now
  | branchFail key now notFound => exact pinned.recordFailure key now notFound []
  | branchPin key prev => exact pinned.retire key prev
  | dropEntry key e => exact pinned.dropEntry key e
  | load commits => exact pinned.load commits

namespace Ingest

theorem Inv.withTable (inv : s.Inv) {table : Table} (tasks : table.tasks = s.table.tasks) (pinned : table.Pinned) :
    (s.withTable table).Inv where
  registered t member := tasks ▸ inv.registered t member
  owned k t there := inv.owned k t (tasks ▸ there)
  distinct := inv.distinct
  commits := inv.commits
  flights text f there := by
    have fits := inv.flights text f there
    apply fits.withTable
    rintro t rfl
    rw [tasks]
    exact fits.2.2.2.2
  callers := inv.callers
  pinned := pinned
  noted _ _ here := .inr here
  answers a member := ⟨(inv.answers a member).1, (inv.answers a member).2.mono fun _ _ => Or.inl⟩
  recorded p member := .inl (inv.recorded p member)
  closed p member := .inl (inv.closed p member)

theorem Inv.setFlight (inv : s.Inv) {text : Bytes} {f : Option Flight} (fits : ∀ g, f = some g → g.Fits s text) :
    (s.setFlight text f).Inv := by
  refine { inv with flights := fun text' g there => ?_ }
  by_cases same : text' = text
  · subst same
    simp only [Ingest.setFlight, update_self] at there
    exact fits g there
  · simp only [Ingest.setFlight, update_of_ne same] at there
    exact inv.flights text' g there

theorem Inv.putFlight (inv : s.Inv) {text : Bytes} {f : Flight} (fits : f.Fits s text) :
    (s.setFlight text (some f)).Inv := by
  apply inv.setFlight
  rintro g ⟨⟩
  exact fits

theorem Inv.endFlight (inv : s.Inv) (text : Bytes) : (s.setFlight text none).Inv := inv.setFlight nofun

theorem lookupKey_cases (table : Table) (key src : ResolveKey) :
    table.lookupKey key src = key ∨ table.lookupKey key src = src := by
  rw [Table.lookupKey]
  split
  · split
    · exact .inr rfl
    · exact .inl rfl
  · exact .inl rfl

theorem Inv.quiet (inv : s.Inv) {table : Table} (quiet : Quiet s.table table) : (s.withTable table).Inv :=
  inv.withTable quiet.tasks (quiet.pinned inv.pinned)

variable {e : FileEntry}

/-- A record that the first section of a function finds suits its key: no record of a branch is ready. -/
theorem Inv.lookup_suits (inv : s.Inv) {key src : ResolveKey} (source : SourceOf key src)
    (looked : (s.table.lookup key src).1 = some e) : (Result.entry e).Suits s.seen key src := by
  have found : s.table.entries (s.table.lookupKey key src) = some e := by
    rw [Table.lookup] at looked
    split at looked
    · cases looked
      assumption
    · cases looked
  have seen := inv.noted _ _ found
  cases state : e.state with
  | failed =>
    rcases lookupKey_cases s.table key src with own | other
    · exact .inr ⟨state, .inl (own ▸ seen)⟩
    · exact .inr ⟨state, .inr (other ▸ seen)⟩
  | ready =>
    refine .inl ⟨state, ?_⟩
    rcases lookupKey_cases s.table key src with own | other
    · exact own ▸ seen
    · rw [other] at found seen
      rcases source with rfl | ⟨rev, branch, rfl⟩
      · exact seen
      · cases branch.symm.trans (inv.pinned _ e found state)

theorem Inv.endPrepared (inv : s.Inv) {text : Bytes} {t : Task} (here : s.flights text = some (.preparing t))
    {table : Table} (tasks : table.tasks = update s.table.tasks t.key none) (pinned : table.Pinned)
    (records : table.entries t.key = some e) :
    ((s.withTable table).setFlight text (some (.returning t.key t.src (.entry e)))).Inv := by
  obtain ⟨same, held, commit, source, free⟩ := inv.flights _ _ here
  have unchanged : table.tasks = s.table.tasks := by rw [tasks, ← free, update_eq_self]
  apply (inv.withTable unchanged pinned).putFlight
  refine ⟨same, held, source, ?_⟩
  cases state : e.state with
  | ready => exact .inl ⟨state, .inr records⟩
  | failed => exact .inr ⟨state, .inl (.inr records)⟩

theorem Inv.endRunning (inv : s.Inv) {t : Task} (member : t ∈ s.running) {table : Table}
    (tasks : table.tasks = update s.table.tasks t.key none) (pinned : table.Pinned)
    (records : table.entries t.key = some e) :
    Inv { s.withTable table with running := s.running.erase t, recorded := (t, e) :: s.recorded } where
  registered u there := by
    have old := mem_of_mem_erase there
    have other : u.key ≠ t.key := by
      intro same
      have both := inv.registered u old
      rw [same, inv.registered t member] at both
      cases both
      exact (List.Nodup.mem_erase_iff inv.distinct).mp there |>.1 rfl
    change table.tasks u.key = some u
    rw [tasks, update_of_ne other]
    exact inv.registered u old
  owned k u there := by
    change table.tasks k = some u at there
    rw [tasks] at there
    by_cases same : k = t.key
    · rw [same, update_self] at there
      cases there
    · rw [update_of_ne same] at there
      obtain ⟨key, running⟩ := inv.owned k u there
      refine ⟨key, (List.Nodup.mem_erase_iff inv.distinct).mpr ⟨?_, running⟩⟩
      rintro rfl
      exact same key.symm
  distinct := inv.distinct.erase t
  commits u there := inv.commits u (mem_of_mem_erase there)
  flights text f there := by
    have fits := inv.flights text f there
    apply Flight.Fits.withTable fits
    rintro u rfl
    change table.tasks u.key = none
    rw [tasks]
    by_cases same : u.key = t.key
    · rw [same, update_self]
    · rw [update_of_ne same]
      exact fits.2.2.2.2
  callers := inv.callers
  pinned := pinned
  noted _ _ here := .inr here
  answers a there := ⟨(inv.answers a there).1, (inv.answers a there).2.mono fun _ _ => Or.inl⟩
  recorded p there := by
    rcases mem_cons.mp there with rfl | there
    · exact .inr records
    · exact .inl (inv.recorded p there)
  closed p there := .inl (inv.closed p there)

/-- A task is registered under a key that had none, and no other function prepares one for that key. -/
theorem Inv.register (inv : s.Inv) {text : Bytes} {t : Task} (here : s.flights text = some (.preparing t)) :
    Inv { (s.withTable (s.table.setTask t.key (some t))).setFlight text (some (.returning t.key t.src (.task t))) with
      running := t :: s.running } := by
  obtain ⟨same, held, commit, source, free⟩ := inv.flights _ _ here
  have others : ∀ u ∈ s.running, u.key ≠ t.key := by
    intro u member equal
    have there := inv.registered u member
    rw [equal, free] at there
    cases there
  constructor
  case registered =>
    intro u member
    change update s.table.tasks t.key (some t) u.key = some u
    rcases mem_cons.mp member with rfl | member
    · exact update_self ..
    · rw [update_of_ne (others u member)]
      exact inv.registered u member
  case owned =>
    intro k u there
    change update s.table.tasks t.key (some t) k = some u at there
    by_cases equal : k = t.key
    · subst equal
      rw [update_self] at there
      cases there
      exact ⟨rfl, mem_cons_self⟩
    · rw [update_of_ne equal] at there
      exact (inv.owned k u there).imp_right (mem_cons_of_mem _)
  case distinct => exact nodup_cons.mpr ⟨fun member => others t member rfl, inv.distinct⟩
  case commits =>
    intro u member
    rcases mem_cons.mp member with rfl | member
    · exact commit
    · exact inv.commits u member
  case flights =>
    intro text' f there
    change update s.flights text _ text' = some f at there
    by_cases equal : text' = text
    · subst equal
      rw [update_self] at there
      cases there
      exact ⟨same, held, source, rfl⟩
    · rw [update_of_ne equal] at there
      have fits := inv.flights text' f there
      apply Flight.Fits.withTable fits
      rintro u rfl
      have other : u.key ≠ t.key := fun key => equal (fits.1.trans (key ▸ same.symm))
      exact (update_of_ne other ..).trans fits.2.2.2.2
  case callers => exact inv.callers
  case pinned => exact inv.pinned
  case noted => exact fun _ _ => .inr
  case answers => exact fun a member => ⟨(inv.answers a member).1, (inv.answers a member).2.mono fun _ _ => Or.inl⟩
  case recorded => exact fun p member => .inl (inv.recorded p member)
  case closed => exact fun p member => .inl (inv.closed p member)

theorem Inv.answer (inv : s.Inv) {text : Bytes} {key src : ResolveKey} {result : Result}
    (here : s.flights text = some (.returning key src result)) :
    Inv { s.setFlight text none with
      callers := s.callers.filter fun k => k.string ≠ text
      answers := (s.callers.filter fun k => k.string = text).map (⟨·, src, result⟩) ++ s.answers } := by
  obtain ⟨rfl, held, source, suits⟩ := inv.flights _ _ here
  have callers : ∀ k ∈ s.callers.filter fun k => k.string ≠ key.string, Held k :=
    fun k member => inv.callers k (mem_of_mem_filter member)
  refine { inv.endFlight key.string with callers, answers := fun a member => ?_ }
  rcases mem_append.mp member with fresh | old
  · obtain ⟨k, waiting, rfl⟩ := mem_map.mp fresh
    obtain ⟨waiting, same⟩ := mem_filter.mp waiting
    cases (inv.callers k waiting).string_inj held (of_decide_eq_true same)
    exact ⟨source, suits⟩
  · exact inv.answers a old

end Ingest

theorem IngestStep.inv {s' : Ingest} (step : IngestStep s s') (inv : s.Inv) : s'.Inv := by
  cases step with
  | join held there =>
    exact { inv with callers := fun k member => (mem_cons.mp member).elim (· ▸ held) (inv.callers k) }
  | start held commit source free =>
    exact { inv.putFlight (f := .begun _ _) ⟨rfl, held, commit, source⟩ with
      callers := fun k member => (mem_cons.mp member).elim (· ▸ held) (inv.callers k) }
  | leave key => exact { inv with callers := fun k member => inv.callers k (mem_of_mem_erase member) }
  | found here there =>
    obtain ⟨same, held, commit, source⟩ := inv.flights _ _ here
    exact (inv.quiet (.lookup _ _)).putFlight ⟨same, held, source, (inv.owned _ _ there).1⟩
  | known here free looked answers =>
    obtain ⟨same, held, commit, source⟩ := inv.flights _ _ here
    exact (inv.quiet (.lookup _ _)).putFlight ⟨same, held, source, (inv.lookup_suits source looked).mono fun _ _ => Or.inl⟩
  | prepare here free due =>
    obtain ⟨same, held, commit, source⟩ := inv.flights _ _ here
    exact (inv.quiet (.lookup _ _)).putFlight ⟨same, held, commit, source, (congrFun (Quiet.lookup _ _).tasks _).trans free⟩
  | refused here pinned now notFound =>
    exact inv.endPrepared here (failTask_tasks ..) (inv.pinned.failTask _ pinned now notFound) (failTask_self ..)
  | stored here e commits =>
    exact inv.endPrepared here (publish_tasks ..) (inv.pinned.publish (inv.flights _ _ here).2.2.1 e commits)
      (publish_self ..)
  | register here => exact inv.register here
  | answer here => exact inv.answer here
  | publish member e commits =>
    exact inv.endRunning member (publish_tasks ..) (inv.pinned.publish (inv.commits _ member) e commits)
      (publish_self ..)
  | fail member pinned now notFound =>
    exact inv.endRunning member (failTask_tasks ..) (inv.pinned.failTask _ pinned now notFound) (failTask_self ..)
  | @close p member =>
    have closed : ∀ q ∈ p :: s.closed, s.seen q.1.key q.2 :=
      forall_mem_cons.mpr ⟨inv.recorded p member, inv.closed⟩
    exact { inv with closed, recorded := fun p there => inv.recorded p (mem_of_mem_erase there) }
  | branchStart key free => exact inv.putFlight (f := .branch key) rfl
  | branchEnd here => exact inv.endFlight _
  | quiet quiet => exact inv.quiet quiet

theorem Ingest.Reached.inv (reached : s.Reached) : s.Inv := by
  induction reached with
  | empty => exact ⟨nofun, nofun, nodup_nil, nofun, nofun, nofun, nofun, nofun, nofun, nofun, nofun⟩
  | step _ step ih => exact step.inv ih

def Ended (s s' : Ingest) (t : Task) : Prop :=
  ∃ e, s'.table.entries t.key = some e ∧ s'.table.tasks t.key = none ∧ s'.running = s.running.erase t ∧
    s'.recorded = (t, e) :: s.recorded

theorem Ingest.Inv.task_ends (inv : s.Inv) {k : ResolveKey} {t u : Task} (there : s.table.tasks k = some u)
    (member : t ∈ s.running) {table : Table} {e : FileEntry}
    (tasks : table.tasks = update s.table.tasks t.key none) (records : table.entries t.key = some e) :
    table.tasks k = some u ∨
      Ended s { s.withTable table with running := s.running.erase t, recorded := (t, e) :: s.recorded } u := by
  by_cases same : k = t.key
  · subst same
    cases (inv.registered t member).symm.trans there
    exact .inr ⟨e, records, (congrFun tasks _).trans (update_self ..), rfl, rfl⟩
  · exact .inl ((congrFun tasks _).trans ((update_of_ne same ..).trans there))

theorem IngestStep.task_kept {s' : Ingest} (step : IngestStep s s') (inv : s.Inv) {k : ResolveKey} {u : Task}
    (there : s.table.tasks k = some u) : s'.table.tasks k = some u ∨ Ended s s' u := by
  -- a key whose task is prepared has no task
  have other : ∀ text t, s.flights text = some (.preparing t) → k ≠ t.key := by
    rintro text t here rfl
    cases there.symm.trans (inv.flights _ _ here).2.2.2.2
  cases step with
  | join | start | leave | answer | close | branchStart | branchEnd => exact .inl there
  | found | known | prepare => exact .inl ((congrFun (Quiet.lookup _ _).tasks k).trans there)
  | refused here =>
    exact .inl ((congrFun (failTask_tasks ..) k).trans ((update_of_ne (other _ _ here) ..).trans there))
  | stored here =>
    exact .inl ((congrFun (publish_tasks ..) k).trans ((update_of_ne (other _ _ here) ..).trans there))
  | register here => exact .inl ((update_of_ne (other _ _ here) ..).trans there)
  | publish member => exact inv.task_ends there member (publish_tasks ..) (publish_self ..)
  | fail member => exact inv.task_ends there member (failTask_tasks ..) (failTask_self ..)
  | quiet quiet => exact .inl ((congrFun quiet.tasks k).trans there)

theorem string_ne_branchFlight (k key : ResolveKey) : k.string ≠ branchFlight key := by
  intro same
  have heads := congrArg List.head? same
  change some Client.slash = some 98 at heads
  exact absurd heads (by decide)

/-- The unfinished tasks are the registered ones, one for a key, and none of a key that is prepared. A step keeps
a registered task or is the end of that task. Every caller has what suits its own key, and what became of a task
whose end is known stood under its key. -/
theorem one_ingestion_per_file (reached : s.Reached) :
    (∀ k t, s.table.tasks k = some t ↔ t ∈ s.running ∧ t.key = k) ∧ s.running.Nodup ∧
    (∀ t ∈ s.running, ∀ u ∈ s.running, t.key = u.key → t = u) ∧
    (∀ text t, s.flights text = some (.preparing t) → text = t.key.string ∧ ∀ u ∈ s.running, u.key ≠ t.key) ∧
    (∀ (k key : ResolveKey), s.flights k.string ≠ some (.branch key)) ∧
    (∀ s' k t, IngestStep s s' → s.table.tasks k = some t → s'.table.tasks k = some t ∨ Ended s s' t) ∧
    (∀ a ∈ s.answers, SourceOf a.key a.src ∧ a.result.Suits s.seen a.key a.src) ∧
    (∀ p ∈ s.closed, s.seen p.1.key p.2) := by
  have inv := reached.inv
  refine ⟨fun k t => ⟨fun there => (inv.owned k t there).symm, ?_⟩, inv.distinct, fun t left u right same => ?_,
    fun text t here => ⟨(inv.flights _ _ here).1, fun u member same => ?_⟩, fun k key here => ?_,
    fun s' k t step => step.task_kept inv, inv.answers, inv.closed⟩
  · rintro ⟨member, rfl⟩
    exact inv.registered t member
  · have there := inv.registered t left
    rw [same, inv.registered u right] at there
    exact (Option.some.inj there).symm
  · have there := inv.registered u member
    rw [same, (inv.flights _ _ here).2.2.2.2] at there
    cases there
  · exact string_ne_branchFlight k key (inv.flights _ _ here)

end

/-- Nobody waits, and nothing is recorded. -/
structure Ingest.Calm (s : Ingest) : Prop where
  reached : s.Reached
  flights : s.flights = fun _ => none
  callers : s.callers = []
  entries : s.table.entries = fun _ => none

section
variable {s : Ingest} {key : ResolveKey}

/-- A first caller starts the function of its file, and `n` others meet it. -/
theorem Ingest.Calm.meet (calm : s.Calm) (held : Held key) (commit : isCommit key.rev = true) (n : Nat) :
    Ingest.Reached { s with
      flights := update s.flights key.string (some (.begun key key)), callers := replicate (n + 1) key } := by
  induction n with
  | zero =>
    have start := calm.reached.step (.start held commit (.inl rfl) (congrFun calm.flights _))
    rw [calm.callers] at start
    exact start
  | succ n ih => exact ih.step (.join held (update_self ..))

theorem Ingest.Calm.lookup_eq (calm : s.Calm) : s.table.lookup key key = (none, s.table) := by
  simp only [Table.lookup, calm.entries]

theorem Ingest.Calm.starts (calm : s.Calm) (held : Held key) (commit : isCommit key.rev = true)
    (free : s.table.tasks key = none) (id n : Nat) :
    ∃ s' : Ingest, s'.Calm ∧ s'.table = s.table.setTask key (some ⟨id, key, key, none⟩) ∧
      s'.running = ⟨id, key, key, none⟩ :: s.running ∧
      s'.answers = replicate (n + 1) ⟨key, key, .task ⟨id, key, key, none⟩⟩ ++ s.answers := by
  have met := calm.meet held commit n
  have prepared := met.step (@IngestStep.prepare _ _ _ _ id 0 (update_self ..) free
    (fun e there => by rw [calm.lookup_eq] at there; cases there))
  have registered := prepared.step (.register (update_self ..))
  have answered := registered.step (.answer (update_self ..))
  refine ⟨_, ⟨answered, ?_, ?_, ?_⟩, ?_, ?_, ?_⟩
  all_goals simp [Ingest.setFlight, Ingest.withTable, calm.lookup_eq, calm.flights, calm.entries, Table.setTask]

end

def commitKey : ResolveKey := ⟨ascii "a/b", ascii "0123456789012345678901234567890123456789", ascii "f"⟩

def otherKey : ResolveKey := { commitKey with path := ascii "g" }

def commitTask : Task := ⟨0, commitKey, commitKey, none⟩

def otherTask : Task := ⟨1, otherKey, otherKey, none⟩

theorem commitKey_held : Held commitKey :=
  .parsed (p := commitKey.string) (by decide +kernel)

theorem otherKey_held : Held otherKey :=
  .parsed (p := otherKey.string) (by decide +kernel)

/-- Two callers meet at one file, and three at another one. -/
theorem commitTask_starts : ∃ s : Ingest, s.Reached ∧ s.running = [otherTask, commitTask] ∧
    s.answers = replicate 3 ⟨otherKey, otherKey, .task otherTask⟩ ++
      replicate 2 ⟨commitKey, commitKey, .task commitTask⟩ := by
  have calm : Ingest.empty.Calm := ⟨.empty, rfl, rfl, rfl⟩
  obtain ⟨s, calm, table, running, answers⟩ := calm.starts commitKey_held (by decide +kernel) rfl 0 1
  have free : s.table.tasks otherKey = none := by
    rw [table]
    decide
  obtain ⟨s', calm', -, running', answers'⟩ := calm.starts otherKey_held (by decide +kernel) free 1 2
  exact ⟨s', calm'.reached, by rw [running', running]; rfl, by rw [answers', answers]; rfl⟩

theorem commitTask_handed_out : ∃ s : Ingest, s.running = [otherTask, commitTask] ∧ s.answers.length = 5 ∧
    (∀ a ∈ s.answers, a.result.Suits s.seen a.key a.src) ∧
    (∀ u ∈ s.running, (u.key = commitKey → u = commitTask) ∧ (u.key = otherKey → u = otherTask)) ∧
    ∀ s', IngestStep s s' → (s'.table.tasks commitKey = some commitTask ∨ Ended s s' commitTask) ∧
      (s'.table.tasks otherKey = some otherTask ∨ Ended s s' otherTask) := by
  obtain ⟨s, reached, running, answers⟩ := commitTask_starts
  obtain ⟨registered, -, single, -, -, kept, given, -⟩ := one_ingestion_per_file reached
  have first : commitTask ∈ s.running := by simp [running]
  have second : otherTask ∈ s.running := by simp [running]
  exact ⟨s, running, by rw [answers]; rfl, fun a member => (given a member).2,
    fun u there => ⟨single u there _ first, single u there _ second⟩,
    fun s' step => ⟨kept s' _ _ step ((registered _ _).mpr ⟨first, rfl⟩),
      kept s' _ _ step ((registered _ _).mpr ⟨second, rfl⟩)⟩⟩

end Xet.Mirror
