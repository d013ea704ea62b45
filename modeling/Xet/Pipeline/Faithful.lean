import Xet.Pipeline.Reading
import Xet.Pipeline.Safe

/-! A reconstructed file against a file in memory. -/
namespace Xet.Pipeline
open Wire Shard Download List Nat UInt32 Xorb

variable {ε : Type} {lz4 : Lz4} {xorbs : XorbHash → Option (StoredXorb lz4)} {o : Terms ε} {f f' : File ε}

/-- The pipeline of the file is the machine: whatever the schedule, the calls return these chunks one by
one, a drain ends where there are none left, and unless they are canceled the calls fail only where this
one does. -/
theorem pipe_refines {entries : List FileDataSequenceEntry} {workers : Nat} {p : Buffers} {s : State ε}
    (reach : Reach lz4 (fetchTerms o.source entries) workers p s) :
    (∀ count d, s.log[count]? = some d → ((startPipeline o entries).after count).next lz4 = .ok d) ∧
    (s.drained = true → (startPipeline o entries).after s.log.length = ⟨[], none⟩) ∧
    ∀ reason d, s.consumer = .failed reason d → reason ≠ .canceled →
      ∃ e, ((startPipeline o entries).after s.log.length).next lz4 = .error e := by
  obtain ⟨stage, inv⟩ := reach.inv
  have safe := inv.safe
  refine ⟨fun count d there => ?_, fun drained => ?_, fun reason d failed live => ?_⟩
  · obtain ⟨low, rfl⟩ := List.getElem?_eq_some_iff.mp there
    have size := safe.delivered.length_eq
    have chunk := Forall₂.get safe.delivered (low.trans_eq size.symm) low
    rw [length_take] at size
    have inside : count < (allChunks (fetchTerms o.source entries)).1.length := by omega
    simp only [get_eq_getElem, getElem_take] at chunk
    rw [Pipe.after, startPipeline, drop_eq_getElem_cons inside, Pipe.next_cons chunk]
  · obtain ⟨count, stop⟩ := safe.drained drained
    simp only [Pipe.after, startPipeline, count, stop, drop_length]
  · have ended := safe.ended reason d failed
    cases reason with
    | canceled => exact absurd rfl live
    | eof =>
      refine ⟨.unexpectedEOF, ?_⟩
      simp only [Pipe.next, Pipe.after, startPipeline, ended.1, ended.2, drop_length]
    | fetch e =>
      refine ⟨.fetch e, ?_⟩
      simp only [Pipe.next, Pipe.after, startPipeline, ended.1, ended.2, drop_length]
    | decode e =>
      obtain ⟨c, there, decode⟩ := ended
      obtain ⟨inside, same⟩ := List.getElem?_eq_some_iff.mp there
      refine ⟨.decode c.hash c.index e, ?_⟩
      simp only [Pipe.next, Pipe.after, startPipeline, drop_eq_getElem_cons inside, same, Fetched.data, decode]
      rfl

def Steady (xorbs : XorbHash → Option (StoredXorb lz4)) (o : Terms ε) (f : File ε) : Prop :=
  ∃ place, At xorbs o f place ∧ (f.err ≠ none → place = none)

theorem Running.steady {p : Spot} (running : Running xorbs o f p) (healthy : f.err = none) : Steady xorbs o f :=
  ⟨some p, running, fun failed => absurd healthy failed⟩

theorem Idle.steady (idle : Idle f) : Steady xorbs o f := ⟨none, idle, fun _ => rfl⟩

theorem fail_idle (f : File ε) (e : FileError ε) : Idle (f.fail e) := ⟨rfl, rfl⟩

/-- What a read gives: bytes of the terms at the position, and some bytes or an error. -/
structure ReadResult (xorbs : XorbHash → Option (StoredXorb lz4)) (o : Terms ε) (f : File ε) (got : Bytes)
    (r : Answer ε × File ε) (more : Bytes) (err : Option (FileError ε)) : Prop where
  answer : r.1 = .read (got ++ more) err
  position : r.2.position = f.position + more.length
  holds : ∀ j b, more[j]? = some b → HoldsAt xorbs o.entries (f.position + j) b
  steady : Steady xorbs o r.2

/-- Reading on from position `a`, in front of a wrong term that ends at `limit`. -/
structure Sequential (xorbs : XorbHash → Option (StoredXorb lz4)) (o : Terms ε) (a limit : Nat) (f : File ε) : Prop where
  bound : f.position ≤ limit
  inside : f.position < o.size
  since : f.err ≠ none ∨ Idle f ∧ f.position = a ∨ ∃ p, Running xorbs o f p ∧ declared p.before ≤ a

theorem readLoop_result (stores : Stores xorbs o.source) (fuel : Nat) (f : File ε) (want : Nat) (got : Bytes)
    (steady : Steady xorbs o f) (healthy : f.err = none) (enough : want ≤ fuel) :
    ∃ more err, ReadResult xorbs o f got (f.readLoop lz4 o fuel want got) more err ∧
      (0 < want → f.position < o.size → got ++ more = [] → err ≠ none) := by
  induction fuel generalizing f want got with
  | zero => exact ⟨[], none, ⟨by simp [File.readLoop], rfl, by simp, steady⟩, fun some => absurd some (by omega)⟩
  | succ fuel ih =>
    rw [File.readLoop]
    split
    · rename_i finished
      refine ⟨[], none, ⟨by simp, rfl, by simp, steady⟩, fun some inside => ?_⟩
      omega
    rename_i going
    obtain ⟨wanted, inside⟩ := not_or.mp going
    obtain ⟨place, at_place, -⟩ := steady
    cases refill : f.refill lz4 o with
    | error e =>
      cases e with
      | advance e => exact ⟨[], some e, ⟨by simp, rfl, by simp, (fail_idle f e).steady⟩, fun _ _ _ => by simp⟩
      | drain e =>
        simp only
        split
        · rename_i nothing
          exact ⟨[], some e, ⟨by simp [nothing], rfl, by simp, (fail_idle f e).steady⟩, fun _ _ _ => by simp⟩
        · rename_i something
          exact ⟨[], none, ⟨by simp, rfl, by simp, (fail_idle f e).steady⟩,
            fun _ _ empty => absurd empty (by simpa using something)⟩
    | ok f₁ =>
      obtain ⟨p, refilled⟩ := refill_eq_ok stores at_place (Nat.not_le.mp inside) refill
      have running := refilled.running
      have count := running.part_length want
      have positive : 0 < (f₁.part want).length := by
        have := refilled.inside
        omega
      obtain ⟨more, err, result, -⟩ := ih (f₁.forward (f₁.part want).length) (want - (f₁.part want).length)
        (got ++ f₁.part want) ((running.forward want).steady (refilled.err.trans healthy)) (refilled.err.trans healthy) (by omega)
      refine ⟨f₁.part want ++ more, err, ⟨?_, ?_, ?_, result.steady⟩, ?_⟩
      · rw [← append_assoc]
        exact result.answer
      · rw [length_append, ← add_assoc, ← refilled.position]
        exact result.position
      · intro j b byte
        rw [getElem?_append] at byte
        split at byte
        · rw [← refilled.position]
          exact running.part_holds want byte
        · rename_i behind
          have there := result.holds _ b byte
          have position : f₁.position + (f₁.part want).length + (j - (f₁.part want).length) = f.position + j := by
            rw [← refilled.position]
            omega
          exact position ▸ there
      · intro _ _ empty
        have none : f₁.part want = [] := by simp_all
        simp [none] at positive

theorem newReconstructedFile_idle : Idle (newReconstructedFile : File ε) := ⟨rfl, rfl⟩

theorem read_result (stores : Stores xorbs o.source) (f : File ε) (size : Nat) (steady : Steady xorbs o f) :
    ∃ bytes err, ReadResult xorbs o f [] (f.read lz4 o size) bytes err ∧ (0 < size → bytes = [] → err ≠ none) := by
  rw [File.read]
  split
  · exact ⟨[], none, ⟨rfl, rfl, by simp, steady⟩, fun some => absurd some (by omega)⟩
  split
  · rename_i e failed
    exact ⟨[], some e, ⟨rfl, rfl, by simp, steady⟩, fun _ _ => by simp⟩
  rename_i healthy
  split
  · exact ⟨[], some .eof, ⟨rfl, rfl, by simp, steady⟩, fun _ _ => by simp⟩
  · rename_i inside
    obtain ⟨more, err, result, some⟩ := readLoop_result stores size f size [] steady healthy le_rfl
    exact ⟨more, err, result, fun wanted empty => some wanted (Nat.not_le.mp inside) (by simp [empty])⟩

theorem holds_iff {next : Nat} : f.holds next = true ↔
    ∃ data, f.cur = some data ∧ f.chunkOff ≤ next ∧ next ≤ f.chunkOff + data.length := by
  unfold File.holds
  cases f.cur <;> simp

theorem seek_steady (f : File ε) (offset : Int64) (whence : Int) (steady : Steady xorbs o f) :
    Steady xorbs o (f.seek o offset whence).2 := by
  rw [File.seek]
  cases seekTarget f.position o.size offset whence with
  | error e => exact steady
  | ok next =>
    simp only
    split
    · exact steady
    split
    · rename_i inside
      obtain ⟨data, cur, low, high⟩ := holds_iff.mp inside
      obtain ⟨place, here, failed⟩ := steady
      cases place with
      | none => cases here.cur.symm.trans cur
      | some p =>
        have running : Running xorbs o f p := here
        obtain rfl : data = p.cur := Option.some.inj (cur.symm.trans running.cur)
        exact ⟨some p, { running with low := low, high := high }, failed⟩
    · exact Idle.steady ⟨rfl, rfl⟩

theorem call_steady (stores : Stores xorbs o.source) (f : File ε) (c : Call) (steady : Steady xorbs o f) :
    Steady xorbs o (f.call lz4 o c).2 := by
  cases c with
  | read size =>
    obtain ⟨bytes, err, result, -⟩ := read_result stores f size steady
    exact result.steady
  | seek offset whence => exact seek_steady f offset whence steady

theorem run_steady (stores : Stores xorbs o.source) (f : File ε) (calls : List Call) (steady : Steady xorbs o f) :
    Steady xorbs o (f.run lz4 o calls).2 := by
  induction calls generalizing f with
  | nil => exact steady
  | cons c calls ih => exact ih _ (call_steady stores f c steady)

variable {t : FileDataSequenceEntry}

theorem readLoop_sequential (stores : Stores xorbs o.source) {before after : List FileDataSequenceEntry} {a : Nat}
    (wrong : Wrong xorbs o before t after) (first : a < declared (before ++ [t])) (fuel : Nat) (f : File ε)
    (want : Nat) (got : Bytes) (here : Sequential xorbs o a (declared (before ++ [t])) f) (healthy : f.err = none) :
    Sequential xorbs o a (declared (before ++ [t])) (f.readLoop lz4 o fuel want got).2 := by
  induction fuel generalizing f want got with
  | zero => exact here
  | succ fuel ih =>
    rw [File.readLoop]
    split
    · exact here
    cases refill : f.refill lz4 o with
    | error e =>
      cases e with
      | advance e => exact ⟨here.bound, here.inside, .inl (by simp [File.fail])⟩
      | drain e =>
        simp only
        split <;> exact ⟨here.bound, here.inside, .inl (by simp [File.fail])⟩
    | ok f₁ =>
      -- The pipeline in use was started no later than at `a`.
      obtain ⟨p, refilled, start⟩ : ∃ p, (∃ was, Refilled xorbs o f f₁ was p) ∧ declared p.before ≤ a := by
        rcases here.since with failed | ⟨idle, rfl⟩ | ⟨q, running, start⟩
        · exact absurd healthy failed
        · have place : At xorbs o f none := idle
          obtain ⟨p, refilled⟩ := refill_eq_ok stores place here.inside refill
          exact ⟨p, ⟨_, refilled⟩, refilled.follows⟩
        · have place : At xorbs o f (some q) := running
          obtain ⟨p, refilled⟩ := refill_eq_ok stores place here.inside refill
          have same : p.before = q.before := refilled.follows
          exact ⟨p, ⟨_, refilled⟩, same ▸ start⟩
      obtain ⟨was, refilled⟩ := refilled
      have running := refilled.running.forward want
      obtain ⟨bound, inside⟩ := running.stuck wrong (start.trans_lt first)
      exact ih _ _ _ ⟨running.high.trans bound, running.high.trans_lt inside, .inr (.inr ⟨p, running, start⟩)⟩
        (refilled.err.trans healthy)

theorem read_sequential (stores : Stores xorbs o.source) {before after : List FileDataSequenceEntry} {a : Nat}
    (wrong : Wrong xorbs o before t after) (first : a < declared (before ++ [t])) (f : File ε) (size : Nat)
    (here : Sequential xorbs o a (declared (before ++ [t])) f) :
    Sequential xorbs o a (declared (before ++ [t])) (f.read lz4 o size).2 := by
  rw [File.read]
  split
  · exact here
  split
  · exact here
  rename_i healthy
  split
  · exact here
  · exact readLoop_sequential stores wrong first _ _ _ _ here healthy

theorem reads_sequential (stores : Stores xorbs o.source) {before after : List FileDataSequenceEntry} {a : Nat}
    (wrong : Wrong xorbs o before t after) (first : a < declared (before ++ [t])) (f : File ε) (sizes : List Nat)
    (here : Sequential xorbs o a (declared (before ++ [t])) f) :
    Sequential xorbs o a (declared (before ++ [t])) (f.run lz4 o (sizes.map .read)).2 := by
  induction sizes generalizing f with
  | nil => exact here
  | cons size sizes ih => exact ih _ (read_sequential stores wrong first f size here)

theorem Steady.sequential (steady : Steady xorbs o f) {before after : List FileDataSequenceEntry}
    (split : o.entries = before ++ t :: after) (first : f.position < declared (before ++ [t])) :
    Sequential xorbs o f.position (declared (before ++ [t])) f := by
  have total : declared (before ++ [t]) ≤ o.size := by
    rw [Terms.size, split, declared_append, declared_append, declared_cons, declared_cons]
    exact Nat.add_le_add_left (Nat.add_le_add_left (Nat.zero_le _) _) _
  refine ⟨first.le, first.trans_le total, .inr ?_⟩
  obtain ⟨place, here, -⟩ := steady
  cases place with
  | none => exact .inl ⟨here, rfl⟩
  | some p =>
    have running : Running xorbs o f p := here
    refine .inr ⟨p, running, ?_⟩
    have off := running.off
    have low := running.low
    omega

def Terms.content (xorbs : XorbHash → Option (StoredXorb lz4)) (o : Terms ε) : Bytes :=
  Download.content xorbs (fetchedTerms o.entries)

theorem content_append (before after : List FileDataSequenceEntry) :
    Download.content xorbs (before ++ after) = Download.content xorbs before ++ Download.content xorbs after := by
  simp [Download.content]

theorem content_length (entries : List FileDataSequenceEntry) (adds : ∀ t ∈ fetchedTerms entries, AddsUp xorbs t) :
    (Download.content xorbs (fetchedTerms entries)).length = declared entries := by
  induction entries with
  | nil => rfl
  | cons t rest ih =>
    by_cases empty : t.unpackedSegBytes = 0
    · rw [fetchedTerms_skip rest empty] at adds ⊢
      rw [ih adds, declared_cons, empty]
      exact (zero_add _).symm
    · rw [fetchedTerms_keep rest empty] at adds ⊢
      rw [content_cons, length_append, (adds t mem_cons_self).length, declared_cons,
        ih fun u member => adds u (mem_cons_of_mem _ member)]

theorem Running.part_content {p : Spot} (running : Running xorbs o f p) (sound : ∀ t ∈ fetchedTerms o.entries, Sound xorbs t)
    (want : Nat) : f.part want = ((o.content xorbs).drop f.position).take (f.part want).length := by
  have parts : fetchedTerms o.entries = fetchedTerms p.before ++ fetchedTerms p.after := by
    rw [running.split, fetchedTerms, filter_append]
    rfl
  have stop : o.stop p.after = none :=
    running.layout.all fun t member => sound t (parts ▸ mem_append_right _ member)
  have length := content_length p.before fun t member => (sound t (parts ▸ mem_append_left _ member)).adds
  have low := running.low
  have off := running.off
  have position : f.position = declared p.before + (f.position - declared p.before) := by omega
  have whole : (o.content xorbs).drop f.position = p.datas.flatten.drop (f.position - declared p.before) := by
    rw [Terms.content, parts, content_append, ← (running.layout.done stop).1, position, ← drop_drop, ← length,
      drop_left, length, Nat.add_sub_cancel_left]
  rw [whole]
  exact running.part_eq want

theorem readLoop_sound (stores : Stores xorbs o.source) (sound : ∀ t ∈ fetchedTerms o.entries, Sound xorbs t) (fuel : Nat)
    (f : File ε) (want : Nat) (got : Bytes) (steady : Steady xorbs o f) (healthy : f.err = none) (enough : want ≤ fuel) :
    (f.readLoop lz4 o fuel want got).1 = .read (got ++ ((o.content xorbs).drop f.position).take want) none ∧
      (f.readLoop lz4 o fuel want got).2.err = none := by
  have total : (o.content xorbs).length = o.size := content_length o.entries fun t member => (sound t member).adds
  induction fuel generalizing f want got with
  | zero =>
    obtain rfl : want = 0 := by omega
    exact ⟨by simp [File.readLoop], healthy⟩
  | succ fuel ih =>
    rw [File.readLoop]
    split
    · rename_i finished
      refine ⟨?_, healthy⟩
      rcases finished with rfl | behind
      · simp
      · rw [drop_eq_nil_of_le (total.trans_le behind)]
        simp
    rename_i going
    obtain ⟨wanted, inside⟩ := not_or.mp going
    obtain ⟨place, here, -⟩ := steady
    obtain ⟨f₁, refill⟩ := refill_exists stores here (Nat.not_le.mp inside) sound
    obtain ⟨p, refilled⟩ := refill_eq_ok stores here (Nat.not_le.mp inside) refill
    have running := refilled.running
    have count := running.part_length want
    have positive := refilled.inside
    have part := running.part_content sound want
    obtain ⟨answer, fine⟩ := ih (f₁.forward (f₁.part want).length) (want - (f₁.part want).length)
      (got ++ f₁.part want) ((running.forward want).steady (refilled.err.trans healthy)) (refilled.err.trans healthy) (by omega)
    rw [refill]
    refine ⟨answer.trans ?_, fine⟩
    have split : want = (f₁.part want).length + (want - (f₁.part want).length) := by omega
    have rest : ((o.content xorbs).drop f.position).take want = f₁.part want ++
        ((o.content xorbs).drop (f₁.position + (f₁.part want).length)).take (want - (f₁.part want).length) := by
      rw [← refilled.position]
      conv_lhs => rw [split, take_add, drop_drop, ← part]
    rw [rest, ← append_assoc]
    rfl

structure Alike (xorbs : XorbHash → Option (StoredXorb lz4)) (o : Terms ε) (f : File ε) (position : Nat) : Prop where
  steady : Steady xorbs o f
  healthy : f.err = none
  same : f.position = position

variable {position : Nat}

theorem call_alike (stores : Stores xorbs o.source) (sound : ∀ t ∈ fetchedTerms o.entries, Sound xorbs t)
    (alike : Alike xorbs o f position) (c : Call) :
    (f.call lz4 o c).1 = (MemFile.call (o.content xorbs) position c).1 ∧
      Alike xorbs o (f.call lz4 o c).2 (MemFile.call (ε := ε) (o.content xorbs) position c).2 := by
  have total : (o.content xorbs).length = o.size := content_length o.entries fun t member => (sound t member).adds
  obtain ⟨steady, healthy, rfl⟩ := alike
  cases c with
  | read size =>
    by_cases empty : size = 0
    · subst empty
      exact ⟨rfl, steady, healthy, rfl⟩
    by_cases behind : o.size ≤ f.position
    · simp only [File.call, File.read, MemFile.call, if_neg empty, healthy, total, if_pos behind]
      exact ⟨trivial, steady, healthy, rfl⟩
    · obtain ⟨bytes, err, result, -⟩ := read_result stores f size steady
      have reads : f.read lz4 o size = f.readLoop lz4 o size size [] := by
        simp only [File.read, if_neg empty, healthy, if_neg behind]
      obtain ⟨answer, fine⟩ := readLoop_sound stores sound size f size [] steady healthy le_rfl
      rw [← reads] at answer fine
      simp only [File.call, MemFile.call, if_neg empty, total, if_neg behind]
      refine ⟨answer, result.steady, fine, ?_⟩
      have same := result.answer.symm.trans answer
      simp only [nil_append, Answer.read.injEq] at same
      rw [result.position, same.1]
  | seek offset whence =>
    have target := seek_steady f offset whence steady
    simp only [File.call, File.seek, MemFile.call, total] at target ⊢
    cases next : seekTarget f.position o.size offset whence with
    | error e => exact ⟨rfl, steady, healthy, rfl⟩
    | ok next =>
      simp only [next] at target ⊢
      refine ⟨trivial, target, ?_, ?_⟩
      · split
        · exact healthy
        · split
          · exact healthy
          · rfl
      · split
        · rename_i stays
          exact stays.symm
        · split <;> rfl

theorem run_alike (stores : Stores xorbs o.source) (sound : ∀ t ∈ fetchedTerms o.entries, Sound xorbs t)
    (alike : Alike xorbs o f position) (calls : List Call) :
    (f.run lz4 o calls).1 = (MemFile.run (o.content xorbs) position calls).1 := by
  induction calls generalizing f position with
  | nil => rfl
  | cons c calls ih =>
    obtain ⟨answer, next⟩ := call_alike stores sound alike c
    exact congrArg₂ cons answer (ih next)

def Terms.trimmed (o : Terms ε) : Terms ε := { o with entries := fetchedTerms o.entries }

theorem declared_fetchedTerms (entries : List FileDataSequenceEntry) : declared (fetchedTerms entries) = declared entries := by
  induction entries with
  | nil => rfl
  | cons t rest ih =>
    by_cases empty : t.unpackedSegBytes = 0
    · rw [fetchedTerms_skip rest empty, ih, declared_cons, empty]
      exact (zero_add _).symm
    · rw [fetchedTerms_keep rest empty, declared_cons, ih, declared_cons]

theorem termAt_fetchedTerms (position off : Nat) (entries : List FileDataSequenceEntry) (low : off ≤ position) :
    termAt position off (fetchedTerms entries) =
      (fetchedTerms (termAt position off entries).1, (termAt position off entries).2) := by
  induction entries generalizing off with
  | nil => rfl
  | cons t rest ih =>
    by_cases empty : t.unpackedSegBytes = 0
    · have zero : off + t.unpackedSegBytes.toNat = off := by rw [empty]; rfl
      rw [fetchedTerms_skip rest empty, termAt, zero, if_neg (not_lt.mpr low)]
      exact ih off low
    · rw [fetchedTerms_keep rest empty, termAt, termAt]
      split
      · rw [fetchedTerms_keep rest empty]
      · rename_i behind
        exact ih _ (not_lt.mp behind)

theorem trimmed_start (o : Terms ε) (position : Nat) :
    startPipeline o.trimmed (termAt position 0 o.trimmed.entries).1 = startPipeline o (termAt position 0 o.entries).1 ∧
      (termAt position 0 o.trimmed.entries).2 = (termAt position 0 o.entries).2 := by
  have at_position : termAt position 0 o.trimmed.entries = _ := termAt_fetchedTerms position 0 o.entries (Nat.zero_le _)
  rw [at_position]
  have fetch : ∀ entries, fetchTerms o.source (fetchedTerms entries) = fetchTerms o.source entries := by
    intro entries
    simp [fetchTerms, fetchedTerms]
  exact ⟨by simp only [startPipeline, Terms.trimmed, fetch], rfl⟩

theorem trimmed_run (o : Terms ε) (f : File ε) (calls : List Call) : f.run lz4 o.trimmed calls = f.run lz4 o calls := by
  have size : o.trimmed.size = o.size := declared_fetchedTerms o.entries
  have advance : ∀ f : File ε, f.advance lz4 o.trimmed = f.advance lz4 o := by
    intro f
    obtain ⟨pipe, off⟩ := trimmed_start o f.position
    simp only [File.advance, pipe, off]
  have refill : ∀ f : File ε, f.refill lz4 o.trimmed = f.refill lz4 o := by
    intro f
    simp only [File.refill, File.take, advance, size]
  have loop : ∀ fuel (f : File ε) want got, f.readLoop lz4 o.trimmed fuel want got = f.readLoop lz4 o fuel want got := by
    intro fuel
    induction fuel with
    | zero => exact fun _ _ _ => rfl
    | succ fuel ih =>
      intro f want got
      simp only [File.readLoop, refill, size, ih]
  have call : ∀ (f : File ε) c, f.call lz4 o.trimmed c = f.call lz4 o c := by
    intro f c
    cases c with
    | read n => simp only [File.call, File.read, loop, size]
    | seek offset whence => simp only [File.call, File.seek, size]
  induction calls generalizing f with
  | nil => rfl
  | cons c calls ih => simp only [File.run, call, ih]

/-- The read returns what the terms have at its position, and some bytes or an error. -/
def TrueRead (xorbs : XorbHash → Option (StoredXorb lz4)) (o : Terms ε) (f : File ε) (size : Nat) : Prop :=
  ∃ bytes err, (f.read lz4 o size).1 = .read bytes err ∧ (f.read lz4 o size).2.position = f.position + bytes.length ∧
    (∀ j b, bytes[j]? = some b → HoldsAt xorbs o.entries (f.position + j) b) ∧ (0 < size → bytes = [] → err ≠ none)

/-- Reading on from a position before the end of a term that does not add up never gets past its end,
nor to the end of the file. -/
def StopsInTime (xorbs : XorbHash → Option (StoredXorb lz4)) (o : Terms ε) (f : File ε) : Prop :=
  ∀ before t after, o.entries = before ++ t :: after → t.unpackedSegBytes ≠ 0 → ¬ AddsUp xorbs t →
    f.position < declared (before ++ [t]) → ∀ sizes : List Nat,
      (f.run lz4 o (sizes.map .read)).2.position ≤ declared (before ++ [t]) ∧
      (f.run lz4 o (sizes.map .read)).2.position < o.size

theorem fits_of_alike (stores : Stores xorbs o.source) (adds : ∀ t ∈ fetchedTerms o.entries, AddsUp xorbs t)
    (alike : ∀ calls, (newReconstructedFile.run lz4 o calls).1 = (MemFile.run (o.content xorbs) 0 calls).1) :
    ∀ t ∈ fetchedTerms o.entries, Fits xorbs t := by
  intro t member
  by_contra unfit
  obtain ⟨inside, some_bytes⟩ := mem_filter.mp member
  obtain ⟨before, after, split⟩ := append_of_mem inside
  have wrong : Wrong xorbs o before t after := ⟨split, by simpa using some_bytes, fun sound => unfit sound.fits⟩
  have start : Steady xorbs o newReconstructedFile := newReconstructedFile_idle.steady
  have first : 0 < declared (before ++ [t]) := by
    have some : t.unpackedSegBytes.toNat ≠ 0 := fun zero => wrong.fetched (UInt32.toNat_inj.mp zero)
    rw [declared_append, declared_cons]
    omega
  have sequential := start.sequential split first
  have stopped := (read_sequential stores wrong first _ o.size sequential).inside
  obtain ⟨bytes, err, result, -⟩ := read_result stores newReconstructedFile o.size start
  have total : (o.content xorbs).length = o.size := content_length o.entries adds
  have positive : 0 < o.size := sequential.inside
  -- In memory the whole content comes at once.
  have answer := alike [.read o.size]
  simp only [File.run, File.call, MemFile.run, MemFile.call, if_neg positive.ne', total, if_neg positive.not_ge,
    drop_zero, result.answer, nil_append, cons.injEq, Answer.read.injEq, and_true] at answer
  have whole : bytes.length = o.size := by rw [answer.1, take_of_length_le total.le, total]
  rw [result.position, whole] at stopped
  exact absurd stopped (by simp [newReconstructedFile])

theorem reconstructed_file_faithful (lz4 : Lz4) (xorbs : XorbHash → Option (StoredXorb lz4)) (o : Terms ε)
    (stores : Stores xorbs o.source) :
    ((∀ t ∈ fetchedTerms o.entries, AddsUp xorbs t) →
      ((∀ calls, (newReconstructedFile.run lz4 o calls).1 = (MemFile.run (o.content xorbs) 0 calls).1) ↔
        ∀ t ∈ fetchedTerms o.entries, Fits xorbs t)) ∧
    (∀ calls, (∀ size, TrueRead xorbs o (newReconstructedFile.run lz4 o calls).2 size) ∧
      StopsInTime xorbs o (newReconstructedFile.run lz4 o calls).2) ∧
    ∀ calls, newReconstructedFile.run lz4 o.trimmed calls = newReconstructedFile.run lz4 o calls := by
  refine ⟨fun adds => ⟨fits_of_alike stores adds, fun fits calls => ?_⟩, fun calls => ⟨fun size => ?_, ?_⟩,
    fun calls => trimmed_run o _ calls⟩
  · have start : Alike xorbs o newReconstructedFile 0 := ⟨newReconstructedFile_idle.steady, rfl, rfl⟩
    exact run_alike stores (fun t member => ⟨adds t member, fits t member⟩) start calls
  · have steady := run_steady stores newReconstructedFile calls newReconstructedFile_idle.steady
    obtain ⟨bytes, err, result, some⟩ := read_result stores _ size steady
    exact ⟨bytes, err, result.answer, result.position, result.holds, some⟩
  · intro before t after split fetched unsound first sizes
    have steady := run_steady stores newReconstructedFile calls newReconstructedFile_idle.steady
    have wrong : Wrong xorbs o before t after := ⟨split, fetched, fun sound => unsound sound.adds⟩
    have stopped := reads_sequential stores wrong first _ sizes (steady.sequential split first)
    exact ⟨stopped.bound, stopped.inside⟩

def sourceOf (xorbs : XorbHash → Option (StoredXorb lz4)) : XorbSource Unit where
  getXorbChunkOffsets hash := match xorbs hash with
    | none => .error ()
    | some x => .ok x.payload.packedEnds
  getXorbReadSeekCloser hash := match xorbs hash with
    | none => .error ()
    | some x => .ok fun start => .ok ⟨x.data.drop start.toNat, none⟩

theorem sourceOf_stores (xorbs : XorbHash → Option (StoredXorb lz4)) : Stores xorbs (sourceOf xorbs) where
  offsets hash x stored := by simp only [sourceOf, stored]
  bytes hash x stored := ⟨fun start => .ok ⟨x.data.drop start.toNat, none⟩, by simp only [sourceOf, stored], fun _ => rfl⟩
  missing hash none := ⟨(), by simp only [sourceOf, none]⟩

theorem frame_small (f : Xorb.Frame lz4) : f.data.length ≤ maxChunkSize :=
  f.data_length.trans_le (decodeChunk_sizes f.decoded).2.2

def oneStored (f : Xorb.Frame lz4) : StoredXorb lz4 where
  payload := ⟨[f], (by decide : 1 ≤ maxChunksPerXorb), by simpa using (frame_small f).trans (by decide)⟩
  tail := []

def oneChunk (f : Xorb.Frame lz4) : XorbHash → Option (StoredXorb lz4) := fun _ => some (oneStored f)

def oneTerm (f : Xorb.Frame lz4) : Terms Unit :=
  ⟨sourceOf (oneChunk f), [⟨.zero, 0, UInt32.ofNat f.data.length, 0, 1⟩]⟩

theorem oneTerm_adds (f : Xorb.Frame lz4) : ∀ t ∈ fetchedTerms (oneTerm f).entries, AddsUp (oneChunk f) t := by
  intro t member
  obtain rfl := mem_singleton.mp (mem_of_mem_filter member)
  have fits : f.data.length < 2 ^ 32 := (frame_small f).trans_lt (by decide)
  refine ⟨⟨_, rfl, le_rfl⟩, ?_⟩
  rw [toNat_ofNat_of_lt' fits]
  simp [entryChunks, oneChunk, oneStored, StoredXorb.chunksIn, StoredXorb.framesIn, entryRange]

def letterFrame : Xorb.Frame Xorb.sampleLz4 := ⟨⟨1, 1, Xorb.compressionNone⟩, [65], [65], by decide, by decide +kernel⟩

def packedFrame : Xorb.Frame Xorb.sampleLz4 :=
  ⟨⟨18, 3, Xorb.compressionLZ4⟩, Xorb.sampleFrame, Xorb.sampleChunk, by decide, by decide +kernel⟩

def letterXorb : StoredXorb Xorb.sampleLz4 := ⟨⟨[letterFrame, packedFrame, letterFrame], by decide, by decide⟩, []⟩

/-- Two terms over one xorb. They share its second chunk. -/
def letterTerms : Terms Unit := ⟨sourceOf fun _ => some letterXorb, [⟨.zero, 0, 4, 0, 2⟩, ⟨.zero, 0, 4, 1, 3⟩]⟩

theorem letterTerms_adds : ∀ t ∈ fetchedTerms letterTerms.entries, AddsUp (fun _ => some letterXorb) t := by
  have terms : fetchedTerms letterTerms.entries = letterTerms.entries := by decide
  rw [terms, letterTerms, forall_mem_cons, forall_mem_singleton]
  exact ⟨⟨⟨_, rfl, by decide⟩, by decide⟩, ⟨_, rfl, by decide⟩, by decide⟩

theorem letterTerms_fits : ∀ t ∈ fetchedTerms letterTerms.entries, Fits (fun _ => some letterXorb) t := by
  have small : ∀ g ∈ letterXorb.payload.frames, g.bytes.length ≤ frameBufSize := by decide +kernel
  intro t _ x stored g member
  cases stored
  exact small g (mem_of_mem_drop (mem_of_mem_take member))

theorem letter_read : (newReconstructedFile.run sampleLz4 letterTerms
    [.read 5, .read 5, .read 5, .seek (-2) 2, .read 1]).1 =
      [.read [65, 1, 2, 3, 1] none, .read [2, 3, 65] none, .read [] (some .eof), .seek (.ok 6), .read [3] none] := by
  have faithful := (reconstructed_file_faithful sampleLz4 (fun _ => some letterXorb) letterTerms
    (sourceOf_stores _)).1 letterTerms_adds
  rw [faithful.mpr letterTerms_fits]
  decide +kernel

/- An LZ4 frame with one uncompressed block is longer than its data. -/
@[irreducible] def longData : Bytes := replicate 131062 0

def longBody : Bytes := [0x04, 0x22, 0x4d, 0x18, 0x60, 0x50, 0xfb, 0xf6, 0xff, 0x01, 0x80] ++ (longData ++ [0, 0, 0, 0])

def longLz4 : Lz4 where
  compress _ _ := none
  decode frame := if frame = longBody then ⟨longData, false⟩ else ⟨[], true⟩

theorem longData_length : longData.length = 131062 := by
  unfold longData
  exact length_replicate

theorem longBody_length : longBody.length = 131077 := by
  rw [longBody, length_append, length_append, longData_length]
  rfl

theorem longBody_decompressed : decompressLZ4 longLz4 chunkBufSize longBody 131062 = .ok longData := by
  have decoded : longLz4.decode longBody = ⟨longData, false⟩ := by
    simp only [longLz4, if_true]
  have size : min longData.length (131062 + 1) = 131062 := by
    rw [longData_length]
    decide
  have whole : longData.take 131062 = longData := take_of_length_le longData_length.le
  have room : 131062 + 1 ≤ chunkBufSize := by decide
  have fine : ¬ (min longData.length (131062 + 1) < 131062 + 1 ∧ false = true) := by simp
  simp only [decompressLZ4, decoded, require_true room, require_true fine, require_true size, ok_bind, whole]
  rfl

theorem longBody_decoded : decodeChunk longLz4 chunkBufSize chunkBufSize
    ⟨131077, 131062, compressionLZ4⟩ longBody = .ok longData := by
  have room : ¬ (compressionLZ4 ≠ compressionNone ∧ chunkBufSize < 131062) := by decide
  have small : 131062 ≤ maxChunkSize := by decide
  have packed : ¬ compressionLZ4 = compressionNone := by decide
  simp only [decodeChunk, require_true longBody_length, require_true room, require_true small, ok_bind, if_neg packed,
    if_true, longBody_decompressed]

def longFrame : Xorb.Frame longLz4 :=
  ⟨⟨131077, 131062, compressionLZ4⟩, longBody, longData, by decide, longBody_decoded⟩

theorem longFrame_length : longFrame.bytes.length = 131085 := longFrame.bytes_length

theorem longFrame_entries : (oneTerm longFrame).entries = [⟨.zero, 0, 131062, 0, 1⟩] := by
  have size : ofNat longFrame.data.length = 131062 := congrArg ofNat longData_length
  rw [oneTerm, size]

theorem longFrame_fetched : startPipeline (oneTerm longFrame) (oneTerm longFrame).entries =
    ⟨[], some (.packedSize .zero 0 131085)⟩ := by
  have valid : StoredXorb.Valid (oneStored longFrame) ⟨0, 1⟩ := ⟨one_pos, le_rfl⟩
  have located : locateTerm (oneTerm longFrame).source ⟨.zero, 0, 131062, 0, 1⟩ = _ :=
    locateTerm_stored (sourceOf_stores (oneChunk longFrame)) rfl valid
  have ends : (oneStored longFrame).payload.packedEnds = [131085] := by
    simp only [oneStored, Xorb.Payload.packedEnds, Segments.ends, map_cons, map_nil, longFrame_length]
  have fetched : fetchTerm (oneTerm longFrame).source ⟨.zero, 0, 131062, 0, 1⟩ =
      ⟨[], .taken (.packedSize .zero 0 131085)⟩ := by
    rw [fetchTerm, located, ends]
    rfl
  rw [startPipeline, longFrame_entries, fetchTerms, filter_cons_of_pos (by decide), filter_nil,
    map_singleton, fetched]
  rfl

theorem MemFile.read_inside {data : Bytes} (inside : position < data.length) :
    (MemFile.run (ε := ε) data position [.read 1]).1 = [.read ((data.drop position).take 1) none] := by
  simp only [MemFile.run, MemFile.call, if_neg Nat.one_ne_zero, if_neg (Nat.not_le.mpr inside)]

theorem read_no_chunk {o : Terms ε} {e : FetchError ε} (inside : 0 < o.size)
    (start : startPipeline o (termAt 0 0 o.entries).1 = ⟨[], some e⟩) :
    (newReconstructedFile.run lz4 o [.read 1]).1 = [.read [] (some (.fetch e))] := by
  have advance : File.advance lz4 o newReconstructedFile = .error (.fetch e) := by
    simp only [File.advance, newReconstructedFile, start]
    rfl
  have refill : File.refill lz4 o newReconstructedFile = .error (.advance (.fetch e)) := by
    have spent : File.spent (newReconstructedFile : File ε) = true := rfl
    rw [File.refill, if_pos spent, File.take, advance]
    rfl
  have going : ¬ (1 = 0 ∨ o.size ≤ 0) := by omega
  have read : File.readLoop lz4 o 1 newReconstructedFile 1 [] =
      (.read [] (some (.fetch e)), newReconstructedFile.fail (.fetch e)) := by
    simp only [File.readLoop, refill]
    exact if_neg going
  have whole : File.read lz4 o newReconstructedFile 1 = _ :=
    (if_neg Nat.one_ne_zero).trans ((if_neg (Nat.not_le.mpr inside)).trans read)
  simp only [File.run, File.call, whole]

/-- A chunk that the checks of an upload accept, and that the file does not read. -/
theorem oversized_chunk_not_read :
    (∀ t ∈ fetchedTerms (oneTerm longFrame).entries, AddsUp (oneChunk longFrame) t) ∧
    (newReconstructedFile.run longLz4 (oneTerm longFrame) [.read 1]).1 =
      [.read [] (some (.fetch (.packedSize .zero 0 131085)))] ∧
    (MemFile.run (ε := Unit) ((oneTerm longFrame).content (oneChunk longFrame)) 0 [.read 1]).1 = [.read [0] none] := by
  have size : (oneTerm longFrame).size = 131062 := by
    rw [Terms.size, longFrame_entries]
    rfl
  have start : (termAt 0 0 (oneTerm longFrame).entries).1 = (oneTerm longFrame).entries := by
    rw [longFrame_entries]
    rfl
  have content : (oneTerm longFrame).content (oneChunk longFrame) = longData := by
    have chunks : entryChunks (oneChunk longFrame) ⟨.zero, 0, 131062, 0, 1⟩ = [longData] := rfl
    rw [Terms.content, longFrame_entries, fetchedTerms_keep [] (by decide), content_cons, chunks]
    exact (append_nil _).trans (append_nil _)
  refine ⟨oneTerm_adds longFrame, read_no_chunk (by rw [size]; decide) (by rw [start]; exact longFrame_fetched), ?_⟩
  rw [content, MemFile.read_inside (by rw [longData_length]; decide), drop_zero, longData, replicate_succ,
    take_succ_cons, take_zero]

end Xet.Pipeline
