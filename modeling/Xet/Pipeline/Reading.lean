import Xet.Pipeline.Stored

/-! A reconstructed file over stored xorbs. Its state is either idle or at a spot of one pipeline; what a
read returns lies at that spot. -/
namespace Xet.Pipeline
open Wire Shard Download List

variable {ε : Type} {lz4 : Xorb.Lz4} {xorbs : XorbHash → Option (StoredXorb lz4)} {o : Terms ε} {f f' : File ε}

theorem Pipe.next_cons {c : Fetched} {d : Bytes} {rest : List Fetched} {stop : Option (FetchError ε)}
    (decode : c.decode lz4 = .ok d) : Pipe.next lz4 ⟨c :: rest, stop⟩ = .ok d := by
  simp only [Pipe.next, Fetched.data, decode]
  rfl

theorem nextHolding_eq_ok {position : Nat} {stop : Option (FetchError ε)} {off off' : Nat} {chunks rest : List Fetched}
    {datas : List Bytes} {data : Bytes} (decodes : List.Forall₂ (fun c d => c.decode lz4 = .ok d) chunks datas)
    (low : off ≤ position) (ok : nextHolding lz4 position stop off chunks = .ok (off', data, rest)) :
    ∃ past future, datas = past ++ data :: future ∧ List.Forall₂ (fun c d => c.decode lz4 = .ok d) rest future ∧
      off' = off + past.flatten.length ∧ off' ≤ position ∧ position < off' + data.length := by
  induction decodes generalizing off with
  | nil => cases ok
  | @cons c d chunks datas decode others ih =>
    rw [nextHolding, Pipe.next_cons decode, ok_bind] at ok
    split at ok
    · rename_i behind
      obtain ⟨past, future, shape, rest, offset, bounds⟩ := ih behind ok
      refine ⟨d :: past, future, by rw [shape]; rfl, rest, ?_, bounds⟩
      rw [offset, flatten_cons, length_append, Nat.add_assoc]
    · rename_i inside
      cases ok
      exact ⟨[], datas, rfl, others, rfl, low, Nat.not_le.mp inside⟩

theorem nextHolding_exists {position : Nat} (stop : Option (FetchError ε)) {off : Nat} {chunks : List Fetched}
    {datas : List Bytes} (decodes : List.Forall₂ (fun c d => c.decode lz4 = .ok d) chunks datas)
    (low : off ≤ position) (inside : position < off + datas.flatten.length) :
    ∃ r, nextHolding lz4 position stop off chunks = .ok r := by
  induction decodes generalizing off with
  | nil => exact absurd (low.trans_lt inside) (by simp)
  | @cons c d chunks datas decode others ih =>
    rw [nextHolding, Pipe.next_cons decode, ok_bind]
    split
    · rename_i behind
      rw [flatten_cons, length_append, ← Nat.add_assoc] at inside
      exact ih behind inside
    · exact ⟨_, rfl⟩

theorem drain_eq {stop : Option (FetchError ε)} {chunks : List Fetched} {datas : List Bytes}
    (decodes : List.Forall₂ (fun c d => c.decode lz4 = .ok d) chunks datas) :
    drain lz4 stop chunks = match stop with
      | some e => .error (.fetch e)
      | none => .ok () := by
  induction decodes with
  | nil => rfl
  | cons decode others ih =>
    rw [drain, Pipe.next_cons decode]
    exact ih

theorem termAt_spec (position off : Nat) (entries : List FileDataSequenceEntry) (low : off ≤ position) :
    ∃ before, entries = before ++ (termAt position off entries).1 ∧
      (termAt position off entries).2 = off + declared before ∧ (termAt position off entries).2 ≤ position := by
  induction entries generalizing off with
  | nil => exact ⟨[], rfl, rfl, low⟩
  | cons t rest ih =>
    rw [termAt]
    split
    · exact ⟨[], rfl, rfl, low⟩
    · rename_i behind
      obtain ⟨before, shape, start, high⟩ := ih _ (Nat.not_lt.mp behind)
      refine ⟨t :: before, by rw [cons_append, ← shape], ?_, high⟩
      rw [start, declared_cons, Nat.add_assoc]

/-- Where the reader is in a pipeline that was started behind the terms `before`. -/
structure Spot where
  before : List FileDataSequenceEntry
  after : List FileDataSequenceEntry
  past : List Bytes
  cur : Bytes
  future : List Bytes

def Spot.datas (p : Spot) : List Bytes := p.past ++ p.cur :: p.future

def Terms.stop (o : Terms ε) (entries : List FileDataSequenceEntry) : Option (FetchError ε) :=
  (allChunks (fetchTerms o.source entries)).2

structure Running (xorbs : XorbHash → Option (StoredXorb lz4)) (o : Terms ε) (f : File ε) (p : Spot) : Prop where
  split : o.entries = p.before ++ p.after
  layout : Layout xorbs p.after p.datas (o.stop p.after)
  cur : f.cur = some p.cur
  off : f.chunkOff = declared p.before + p.past.flatten.length
  low : f.chunkOff ≤ f.position
  high : f.position ≤ f.chunkOff + p.cur.length
  opened : ∃ pipe, f.pipe = some pipe
  /-- Before the final chunk the pipeline has the chunks behind the current one. -/
  more : f.chunkOff + p.cur.length < o.size → ∃ chunks, f.pipe = some ⟨chunks, o.stop p.after⟩ ∧
    List.Forall₂ (fun c d => c.decode lz4 = .ok d) chunks p.future
  /-- The final chunk is given out only when nothing is wrong behind it. -/
  last : o.size ≤ f.chunkOff + p.cur.length → o.stop p.after = none

structure Idle (f : File ε) : Prop where
  pipe : f.pipe = none
  cur : f.cur = none

def At (xorbs : XorbHash → Option (StoredXorb lz4)) (o : Terms ε) (f : File ε) : Option Spot → Prop
  | none => Idle f
  | some p => Running xorbs o f p

/-- A spot of the pipeline that was running before, or of one started at the position. -/
def Follows (f : File ε) : Option Spot → Spot → Prop
  | none, p => declared p.before ≤ f.position
  | some q, p => p.before = q.before

theorem spent_iff : f.spent = true ↔ ∀ data, f.cur = some data → f.position = f.chunkOff + data.length := by
  unfold File.spent
  cases f.cur <;> simp

structure Supply (xorbs : XorbHash → Option (StoredXorb lz4)) (o : Terms ε) (f : File ε)
    (was : Option Spot) (before after : List FileDataSequenceEntry) (past datas : List Bytes) (chunks : List Fetched) :
    Prop where
  split : o.entries = before ++ after
  layout : Layout xorbs after (past ++ datas) (o.stop after)
  decodes : List.Forall₂ (fun c d => c.decode lz4 = .ok d) chunks datas
  low : declared before + past.flatten.length ≤ f.position
  advance : f.advance lz4 o =
    (nextHolding lz4 f.position (o.stop after) (declared before + past.flatten.length) chunks).map fun r =>
      { f with pipe := some ⟨r.2.2, o.stop after⟩, cur := some r.2.1, chunkOff := r.1 }
  follows : ∀ p : Spot, p.before = before → Follows f was p

variable {was : Option Spot}

theorem exists_supply (stores : Stores xorbs o.source) (place : At xorbs o f was) (spent : f.spent = true)
    (inside : f.position < o.size) :
    ∃ before after past datas chunks, Supply xorbs o f was before after past datas chunks := by
  cases was with
  | none =>
    have idle : Idle f := place
    obtain ⟨before, shape, start, low⟩ := termAt_spec f.position 0 o.entries (Nat.zero_le _)
    obtain ⟨datas, decodes, layout⟩ := fetchTerms_layout stores (termAt f.position 0 o.entries).1
    rw [Nat.zero_add] at start
    refine ⟨before, (termAt f.position 0 o.entries).1, [], datas, _, shape, layout, decodes, start ▸ low, ?_, ?_⟩
    · simp only [File.advance, idle.pipe, start]
      rfl
    · rintro p rfl
      exact start.symm.trans_le low
  | some p =>
    have running : Running xorbs o f p := place
    have done := spent_iff.mp spent p.cur running.cur
    obtain ⟨chunks, opened, decodes⟩ := running.more (done ▸ inside)
    have off : f.chunkOff + p.cur.length = declared p.before + (p.past ++ [p.cur]).flatten.length := by
      simp only [running.off, flatten_append, flatten_singleton, length_append, Nat.add_assoc]
    refine ⟨p.before, p.after, p.past ++ [p.cur], p.future, chunks, running.split, ?_, decodes, ?_, ?_, ?_⟩
    · rw [append_assoc]
      exact running.layout
    · exact (off.symm.trans done.symm).le
    · simp only [File.advance, opened, running.cur, off]
      rfl
    · exact fun q same => same

theorem Supply.taken {before after : List FileDataSequenceEntry} {past datas : List Bytes} {chunks : List Fetched}
    (supply : Supply xorbs o f was before after past datas chunks) (ok : f.advance lz4 o = .ok f') :
    ∃ more data future rest off, datas = more ++ data :: future ∧
      List.Forall₂ (fun c d => c.decode lz4 = .ok d) rest future ∧
      off = declared before + (past ++ more).flatten.length ∧ off ≤ f.position ∧ f.position < off + data.length ∧
      f' = { f with pipe := some ⟨rest, o.stop after⟩, cur := some data, chunkOff := off } := by
  rw [supply.advance] at ok
  cases next : nextHolding lz4 f.position (o.stop after) (declared before + past.flatten.length) chunks with
  | error e =>
    rw [next] at ok
    cases ok
  | ok r =>
    rw [next] at ok
    obtain ⟨off, data, rest⟩ := r
    cases ok
    obtain ⟨more, future, shape, decodes, offset, bounds⟩ := nextHolding_eq_ok supply.decodes supply.low next
    refine ⟨more, data, future, rest, off, shape, decodes, ?_, bounds.1, bounds.2, rfl⟩
    rw [offset, flatten_append, length_append, Nat.add_assoc]

structure Refilled (xorbs : XorbHash → Option (StoredXorb lz4)) (o : Terms ε) (f f' : File ε) (was : Option Spot)
    (p : Spot) : Prop where
  running : Running xorbs o f' p
  position : f'.position = f.position
  err : f'.err = f.err
  inside : f'.position < f'.chunkOff + p.cur.length
  follows : Follows f was p

theorem refill_eq_ok (stores : Stores xorbs o.source) (place : At xorbs o f was) (inside : f.position < o.size)
    (ok : f.refill lz4 o = .ok f') : ∃ p, Refilled xorbs o f f' was p := by
  cases spent : f.spent with
  | true =>
    obtain ⟨before, after, past, datas, chunks, supply⟩ := exists_supply stores place spent inside
    rw [File.refill, if_pos spent] at ok
    simp only [File.take, bind_eq_ok, mapError_eq_ok] at ok
    obtain ⟨f₁, advanced, ok⟩ := ok
    obtain ⟨more, data, future, rest, off, shape, decodes, offset, low, high, rfl⟩ := supply.taken advanced
    have layout := supply.layout
    rw [shape, ← append_assoc] at layout
    refine ⟨⟨before, after, past ++ more, data, future⟩, ?_⟩
    simp only at ok
    split at ok
    · rename_i final
      rw [drain_eq decodes] at ok
      cases stop : o.stop after with
      | some e =>
        rw [stop] at ok
        cases ok
      | none =>
        rw [stop] at ok
        cases ok
        refine ⟨⟨supply.split, layout, rfl, offset, low, high.le, ⟨_, rfl⟩, ?_, fun _ => stop⟩, rfl, rfl, high,
          supply.follows _ rfl⟩
        exact fun early => absurd final (Nat.not_le.mpr early)
    · rename_i early
      cases ok
      refine ⟨⟨supply.split, layout, rfl, offset, low, high.le, ⟨_, rfl⟩, fun _ => ⟨rest, rfl, decodes⟩, ?_⟩, rfl, rfl,
        high, supply.follows _ rfl⟩
      exact fun final => absurd final early
  | false =>
    obtain ⟨data, cur, inner⟩ : ∃ data, f.cur = some data ∧ f.position ≠ f.chunkOff + data.length := by
      simpa using mt spent_iff.mpr (ne_true_of_eq_false spent)
    rw [File.refill, spent] at ok
    cases ok
    cases was with
    | none => cases place.cur.symm.trans cur
    | some p =>
      have running : Running xorbs o f p := place
      obtain rfl : data = p.cur := Option.some.inj (cur.symm.trans running.cur)
      exact ⟨p, running, rfl, rfl, running.high.lt_of_ne inner, rfl⟩

theorem refill_exists (stores : Stores xorbs o.source) (place : At xorbs o f was) (inside : f.position < o.size)
    (sound : ∀ t ∈ fetchedTerms o.entries, Sound xorbs t) : ∃ f', f.refill lz4 o = .ok f' := by
  cases spent : f.spent with
  | true =>
    obtain ⟨before, after, past, datas, chunks, supply⟩ := exists_supply stores place spent inside
    have stop : o.stop after = none := by
      refine supply.layout.all fun t member => sound t ?_
      rw [supply.split, fetchedTerms, filter_append]
      exact mem_append_right _ member
    have room : f.position < declared before + past.flatten.length + datas.flatten.length := by
      have length := (supply.layout.done stop).2
      rw [flatten_append, length_append] at length
      rw [Nat.add_assoc, length]
      rwa [Terms.size, supply.split, declared, map_append, sum_append] at inside
    obtain ⟨r, next⟩ := nextHolding_exists (o.stop after) supply.decodes supply.low room
    have advanced := supply.advance
    rw [next] at advanced
    rw [File.refill, if_pos spent, File.take, advanced]
    simp only [Except.map, Except.mapError, ok_bind]
    split
    · obtain ⟨past', future, shape, decodes, -⟩ := nextHolding_eq_ok supply.decodes supply.low next
      rw [drain_eq decodes, stop]
      exact ⟨_, rfl⟩
    · exact ⟨_, rfl⟩
  | false => exact ⟨f, by rw [File.refill, spent]; rfl⟩

def File.part (f : File ε) (want : Nat) : Bytes := ((f.cur.getD []).drop (f.position - f.chunkOff)).take want

def File.forward (f : File ε) (n : Nat) : File ε := { f with position := f.position + n }

variable {p : Spot}

theorem Running.part_length (running : Running xorbs o f p) (want : Nat) :
    (f.part want).length = min want (f.chunkOff + p.cur.length - f.position) := by
  have low := running.low
  rw [File.part, running.cur, Option.getD_some, length_take, length_drop]
  omega

theorem Running.forward (running : Running xorbs o f p) (want : Nat) :
    Running xorbs o (f.forward (f.part want).length) p where
  split := running.split
  layout := running.layout
  cur := running.cur
  off := running.off
  low := running.low.trans (Nat.le_add_right ..)
  high := by
    have high := running.high
    have length := running.part_length want
    simp only [File.forward]
    omega
  opened := running.opened
  more := running.more
  last := running.last

theorem Running.part_eq (running : Running xorbs o f p) (want : Nat) :
    f.part want = (p.datas.flatten.drop (f.position - declared p.before)).take (f.part want).length := by
  have low := running.low
  have off := running.off
  have length := running.part_length want
  have skip : f.position - declared p.before = p.past.flatten.length + (f.position - f.chunkOff) := by omega
  have high := running.high
  have shape : f.part want = (p.cur.drop (f.position - f.chunkOff)).take want := by
    rw [File.part, running.cur, Option.getD_some]
  rw [Spot.datas, flatten_append, flatten_cons, skip, ← drop_drop, drop_left,
    drop_append_of_le_length (by omega), take_append_of_le_length (by rw [length_drop]; omega), shape,
    length_take, ← take_eq_take_min]

theorem HoldsAt.behind {after : List FileDataSequenceEntry} {q : Nat} {b : UInt8} (there : HoldsAt xorbs after q b)
    (before : List FileDataSequenceEntry) : HoldsAt xorbs (before ++ after) (declared before + q) b := by
  induction before with
  | nil => simpa [declared] using there
  | cons t rest ih =>
    rw [declared_cons, Nat.add_assoc]
    exact .later t _ _ _ ih

theorem Running.part_holds (running : Running xorbs o f p) (want : Nat) {j : Nat} {b : UInt8}
    (byte : (f.part want)[j]? = some b) : HoldsAt xorbs o.entries (f.position + j) b := by
  have low := running.low
  have off := running.off
  rw [running.part_eq, getElem?_take] at byte
  split at byte
  · rw [getElem?_drop] at byte
    have behind := (running.layout.bytes _ _ byte).behind p.before
    rw [← running.split] at behind
    have position : declared p.before + (f.position - declared p.before + j) = f.position + j := by omega
    rwa [position] at behind
  · cases byte

structure Wrong (xorbs : XorbHash → Option (StoredXorb lz4)) (o : Terms ε)
    (before : List FileDataSequenceEntry) (t : FileDataSequenceEntry) (after : List FileDataSequenceEntry) : Prop where
  split : o.entries = before ++ t :: after
  fetched : t.unpackedSegBytes ≠ 0
  unsound : ¬ Sound xorbs t

theorem declared_append (before after : List FileDataSequenceEntry) :
    declared (before ++ after) = declared before + declared after := by
  simp [declared]

/-- A pipeline that starts before the end of a wrong term does not get past it, and does not deliver the
final chunk of the file. -/
theorem Running.stuck {before after : List FileDataSequenceEntry} {t : FileDataSequenceEntry}
    (running : Running xorbs o f p) (wrong : Wrong xorbs o before t after)
    (start : declared p.before < declared (before ++ [t])) :
    f.chunkOff + p.cur.length ≤ declared (before ++ [t]) ∧ f.chunkOff + p.cur.length < o.size := by
  obtain ⟨mid, rfl, shape⟩ : ∃ mid, before = p.before ++ mid ∧ p.after = mid ++ t :: after := by
    rcases append_eq_append_iff.mp (running.split.symm.trans wrong.split) with ⟨mid, first, second⟩ | ⟨mid, first, second⟩
    · exact ⟨mid, first, second⟩
    · cases mid with
      | nil => exact ⟨[], by simpa using first.symm, by simpa using second.symm⟩
      | cons u mid =>
        obtain ⟨rfl, -⟩ := List.cons.inj second
        rw [first, declared_append, declared_append, declared_cons, declared_cons] at start
        have none : declared [] = 0 := rfl
        omega
  obtain ⟨bound, failed⟩ := running.layout.bound mid t after shape wrong.fetched wrong.unsound
  have off := running.off
  constructor
  · rw [Spot.datas, flatten_append, flatten_cons, length_append, length_append] at bound
    rw [append_assoc, declared_append]
    omega
  · by_contra final
    exact failed (running.last (Nat.not_lt.mp final))

end Xet.Pipeline
