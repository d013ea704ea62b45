import Xet.Lib.Slices
import Xet.Xorb.Chunk

/-! The byte grouping of the code, on the arrays it works on: planes are slices of the destination, the loops write
them element by element, and a destination with stale bytes behind its length is extended over the result. -/
namespace Xet.Xorb.InPlace
open Slices Wire

section
variable {n k : Nat}

/-- A loop over groups: `body` handles group `i` at the front of a slice, which then advances by four elements. -/
def groupLoop {size : Nat} (body : Slice size → Nat → Vector UInt8 n → Option (Vector UInt8 n)) :
    Nat → Nat → Slice size → Vector UInt8 n → Option (Vector UInt8 n)
  | 0, _, _, mem => some mem
  | count + 1, i, s, mem => do
    let mem ← body s i mem
    groupLoop body count (i + 1) (← s.tail 4) mem

def deinterleave4 (p0 p1 p2 p3 : Slice n) (array : Vector UInt8 k) (src : Slice k) (mem : Vector UInt8 n) :
    Option (Vector UInt8 n) :=
  if p0.len = 0 then some mem
  else do
    let _ ← p1.get mem (p0.len - 1)
    let _ ← p2.get mem (p0.len - 1)
    let _ ← p3.get mem (p0.len - 1)
    let _ ← src.get array (4 * p0.len - 1)
    groupLoop (fun src i mem => do
      let _ ← src.get array 3
      let mem ← p0.assign i src array 0 mem
      let mem ← p1.assign i src array 1 mem
      let mem ← p2.assign i src array 2 mem
      p3.assign i src array 3 mem) p0.len 0 src mem

def interleave4 (dst : Slice n) (array : Vector UInt8 k) (p0 p1 p2 p3 : Slice k) (mem : Vector UInt8 n) :
    Option (Vector UInt8 n) :=
  if p0.len = 0 then some mem
  else do
    let _ ← p1.get array (p0.len - 1)
    let _ ← p2.get array (p0.len - 1)
    let _ ← p3.get array (p0.len - 1)
    let _ ← dst.get mem (4 * p0.len - 1)
    groupLoop (fun dst i mem => do
      let _ ← dst.get mem 3
      let mem ← dst.assign 0 p0 array i mem
      let mem ← dst.assign 1 p1 array i mem
      let mem ← dst.assign 2 p2 array i mem
      dst.assign 3 p3 array i mem) p0.len 0 dst mem

def planes {size : Nat} (s : Slice size) (groups tail : Nat) :
    Option (Slice size × Slice size × Slice size × Slice size) := do
  let p0 ← s.head groups
  let p1 ← (← s.tail (groups + min 1 tail)).head groups
  let p2 ← (← s.tail (2 * groups + min 2 tail)).head groups
  let p3 ← (← s.tail (3 * groups + min 3 tail)).head groups
  return (p0, p1, p2, p3)

/-- The loops over the partial group, from byte `j` on: byte `source j` goes to `place j`. -/
def scatterFrom (result : Slice n) (array : Vector UInt8 k) (data : Slice k) (place source : Nat → Nat) :
    Nat → Nat → Vector UInt8 n → Option (Vector UInt8 n)
  | 0, _, mem => some mem
  | count + 1, j, mem => do
    let mem ← result.assign (place j) data array (source j) mem
    scatterFrom result array data place source count (j + 1) mem

structure Returned (n : Nat) where
  dst : Slice n
  mem : Vector UInt8 n
  err : Option ChunkError

def applyByteGrouping4 (mem : Vector UInt8 n) (dst : Slice n) (array : Vector UInt8 k) (data : Slice k) :
    Option (Returned n) :=
  if data.len = 0 then some ⟨dst, mem, none⟩
  else if dst.cap - dst.len < data.len then
    some ⟨dst, mem, some (.outputCapacity (dst.len + data.len) dst.cap)⟩
  else do
    let off := dst.len
    let dst ← dst.head (off + data.len)
    let result ← dst.tail off
    let groups := data.len / 4
    let tail := data.len % 4
    let (p0, p1, p2, p3) ← planes result groups tail
    let mem ← deinterleave4 p0 p1 p2 p3 array data mem
    let mem ← scatterFrom result array data (fun j => (j + 1) * groups + j) (fun j => 4 * groups + j) tail 0 mem
    return ⟨dst, mem, none⟩

def reverseByteGrouping4 (mem : Vector UInt8 n) (dst : Slice n) (array : Vector UInt8 k) (data : Slice k) :
    Option (Returned n) :=
  if data.len = 0 then some ⟨dst, mem, none⟩
  else if dst.cap - dst.len < data.len then
    some ⟨dst, mem, some (.outputCapacity (dst.len + data.len) dst.cap)⟩
  else do
    let off := dst.len
    let dst ← dst.head (off + data.len)
    let result ← dst.tail off
    let groups := data.len / 4
    let tail := data.len % 4
    let (p0, p1, p2, p3) ← planes data groups tail
    let mem ← interleave4 result array p0 p1 p2 p3 mem
    let mem ← scatterFrom result array data (fun j => 4 * groups + j) (fun j => (j + 1) * groups + j) tail 0 mem
    return ⟨dst, mem, none⟩

end

def nth {size : Nat} (p0 p1 p2 p3 : Slice size) : Nat → Slice size
  | 0 => p0
  | 1 => p1
  | 2 => p2
  | _ => p3

structure Cut {size : Nat} (s : Slice size) (len : Nat) (p0 p1 p2 p3 : Slice size) : Prop where
  off : ∀ c < 4, ∀ j, (nth p0 p1 p2 p3 c).off + j = s.off + groupedIndex len (4 * j + c)
  len : ∀ c < 4, (nth p0 p1 p2 p3 c).len = len / 4

theorem exists_planes {size : Nat} (s : Slice size) :
    ∃ p0 p1 p2 p3, planes s (s.len / 4) (s.len % 4) = some (p0, p1, p2, p3) ∧ Cut s s.len p0 p1 p2 p3 := by
  have room := s.len_le
  have part := Nat.mod_lt s.len (show 0 < 4 by decide)
  obtain ⟨p0, cut0, off0, len0, _⟩ := s.exists_head (show s.len / 4 ≤ s.cap by omega)
  obtain ⟨t1, p1, tail1, cut1, off1, len1⟩ := s.exists_part (show s.len / 4 + min 1 (s.len % 4) + s.len / 4 ≤ s.len by omega)
  obtain ⟨t2, p2, tail2, cut2, off2, len2⟩ :=
    s.exists_part (show 2 * (s.len / 4) + min 2 (s.len % 4) + s.len / 4 ≤ s.len by omega)
  obtain ⟨t3, p3, tail3, cut3, off3, len3⟩ :=
    s.exists_part (show 3 * (s.len / 4) + min 3 (s.len % 4) + s.len / 4 ≤ s.len by omega)
  refine ⟨p0, p1, p2, p3, ?_, ?_, ?_⟩
  · simp only [planes, cut0, tail1, cut1, tail2, cut2, tail3, cut3, Option.bind_eq_bind, Option.bind_some]
    rfl
  · intro c small j
    rw [groupedIndex_group _ _ small]
    interval_cases c <;> rw [nth] <;> omega
  · intro c small
    interval_cases c <;> assumption

section
variable {n k : Nat} {target : Vector UInt8 n} {array : Vector UInt8 k} {result : Slice n} {data : Slice k}

theorem exists_four (assign : Nat → Vector UInt8 n → Option (Vector UInt8 n)) (place : Nat → Nat)
    (each : ∀ c < 4, ∀ mem, ∃ mem', assign c mem = some mem' ∧ Toward target mem mem' ∧ Right target mem' (place c))
    (mem : Vector UInt8 n) :
    ∃ m0 m1 m2 m3, assign 0 mem = some m0 ∧ assign 1 m0 = some m1 ∧ assign 2 m1 = some m2 ∧ assign 3 m2 = some m3 ∧
      Toward target mem m3 ∧ ∀ c < 4, Right target m3 (place c) := by
  obtain ⟨m0, wrote0, kept0, right0⟩ := each 0 (by decide) mem
  obtain ⟨m1, wrote1, kept1, right1⟩ := each 1 (by decide) m0
  obtain ⟨m2, wrote2, kept2, right2⟩ := each 2 (by decide) m1
  obtain ⟨m3, wrote3, kept3, right3⟩ := each 3 (by decide) m2
  refine ⟨m0, m1, m2, m3, wrote0, wrote1, wrote2, wrote3, ((kept0.trans kept1).trans kept2).trans kept3, ?_⟩
  intro c small
  interval_cases c
  · exact kept3 _ (kept2 _ (kept1 _ right0))
  · exact kept3 _ (kept2 _ right1)
  · exact kept3 _ right2
  · exact right3

theorem groupLoop_right {size groups : Nat} {body : Slice size → Nat → Vector UInt8 n → Option (Vector UInt8 n)}
    {whole : Slice size} (place : Nat → Nat) (enough : 4 * groups ≤ whole.len)
    (each : ∀ i < groups, ∀ s : Slice size, s.off = whole.off + 4 * i → s.len = whole.len - 4 * i → ∀ mem,
      ∃ mem', body s i mem = some mem' ∧ Toward target mem mem' ∧ ∀ c < 4, Right target mem' (place (4 * i + c)))
    {count i : Nat} (total : i + count = groups) {s : Slice size} (off : s.off = whole.off + 4 * i)
    (len : s.len = whole.len - 4 * i) (mem : Vector UInt8 n) :
    ∃ mem', groupLoop body count i s mem = some mem' ∧ Toward target mem mem' ∧
      ∀ j < groups, i ≤ j → ∀ c < 4, Right target mem' (place (4 * j + c)) := by
  induction count generalizing i s mem with
  | zero => exact ⟨mem, rfl, Toward.refl, fun j inside later => absurd inside (by omega)⟩
  | succ count ih =>
    obtain ⟨next, handled, kept, here⟩ := each i (by omega) s off len mem
    obtain ⟨rest, advanced, restOff, restLen, _⟩ := s.exists_tail (show 4 ≤ s.len by omega)
    obtain ⟨mem', run, onward, later⟩ :=
      ih (show i + 1 + count = groups by omega) (show rest.off = whole.off + 4 * (i + 1) by omega) (by omega) next
    refine ⟨mem', ?_, kept.trans onward, ?_⟩
    · simp only [groupLoop, handled, advanced, run, Option.bind_eq_bind, Option.bind_some]
    · intro j inside since
      rcases Nat.eq_or_lt_of_le since with rfl | since
      · exact fun c small => onward _ (here c small)
      · exact later j inside since

/-- Both functions make four checks before the loop and one in each round, and write four elements in a round. -/
theorem checkedLoop_right {size groups : Nat} {x1 x2 x3 x : Option UInt8} {whole : Slice size}
    (check : Slice size → Vector UInt8 n → Option UInt8)
    (assign : Slice size → Nat → Nat → Vector UInt8 n → Option (Vector UInt8 n)) (place : Nat → Nat)
    (enough : 4 * groups ≤ whole.len)
    (loaded : groups ≠ 0 → (∃ y, x1 = some y) ∧ (∃ y, x2 = some y) ∧ (∃ y, x3 = some y) ∧ ∃ y, x = some y)
    (checks : ∀ s mem, 3 < s.len → ∃ y, check s mem = some y)
    (each : ∀ i < groups, ∀ s : Slice size, s.off = whole.off + 4 * i → s.len = whole.len - 4 * i → ∀ c < 4, ∀ mem,
      ∃ mem', assign s i c mem = some mem' ∧ Toward target mem mem' ∧ Right target mem' (place (4 * i + c)))
    (mem : Vector UInt8 n) :
    ∃ mem', (if groups = 0 then some mem
      else do
        let _ ← x1
        let _ ← x2
        let _ ← x3
        let _ ← x
        groupLoop (fun s i mem => do
          let _ ← check s mem
          let mem ← assign s i 0 mem
          let mem ← assign s i 1 mem
          let mem ← assign s i 2 mem
          assign s i 3 mem) groups 0 whole mem) = some mem' ∧ Toward target mem mem' ∧
      ∀ j < groups, ∀ c < 4, Right target mem' (place (4 * j + c)) := by
  by_cases none : groups = 0
  · rw [if_pos none]
    exact ⟨mem, rfl, Toward.refl, fun j inside => absurd inside (by omega)⟩
  · obtain ⟨⟨y1, rfl⟩, ⟨y2, rfl⟩, ⟨y3, rfl⟩, y, rfl⟩ := loaded none
    rw [if_neg none]
    refine Exists.imp (fun mem' run => ⟨run.1, run.2.1, fun j inside => run.2.2 j inside (Nat.zero_le j)⟩)
      (groupLoop_right place enough ?_ (Nat.zero_add groups) (by omega) (by omega) mem)
    intro i inside s off len mem
    obtain ⟨z, checked⟩ := checks s mem (by omega)
    obtain ⟨m0, m1, m2, m3, wrote0, wrote1, wrote2, wrote3, kept, here⟩ :=
      exists_four (assign s i) (fun c => place (4 * i + c)) (each i inside s off len) mem
    refine ⟨m3, ?_, kept, here⟩
    simp only [checked, wrote0, wrote1, wrote2, wrote3, Option.bind_eq_bind, Option.bind_some]

theorem deinterleave4_right {p0 p1 p2 p3 : Slice n} (cut : Cut result data.len p0 p1 p2 p3)
    (values : ∀ i < data.len, target[result.off + groupedIndex data.len i]? = (data.read array)[i]?)
    (mem : Vector UInt8 n) :
    ∃ mem', deinterleave4 p0 p1 p2 p3 array data mem = some mem' ∧ Toward target mem mem' ∧
      ∀ j < data.len / 4, ∀ c < 4, Right target mem' (result.off + groupedIndex data.len (4 * j + c)) := by
  have len0 : p0.len = data.len / 4 := cut.len 0 (by decide)
  have len1 : p1.len = data.len / 4 := cut.len 1 (by decide)
  have len2 : p2.len = data.len / 4 := cut.len 2 (by decide)
  have len3 : p3.len = data.len / 4 := cut.len 3 (by decide)
  rw [deinterleave4, len0]
  apply checkedLoop_right (fun src _ => src.get array 3) (fun src i c => (nth p0 p1 p2 p3 c).assign i src array c)
    (fun i => result.off + groupedIndex data.len i) (by omega)
  · exact fun some => ⟨p1.exists_get mem (by omega), p2.exists_get mem (by omega), p3.exists_get mem (by omega),
      data.exists_get array (by omega)⟩
  · exact fun src _ long => src.exists_get array long
  · intro i inside src off len c small mem
    rw [← cut.off c small]
    apply Slice.exists_assign
    · rw [cut.len c small]
      exact inside
    · omega
    · rw [cut.off c small, values _ (by omega), src.read_getElem? array (by omega), off, Nat.add_assoc,
        ← data.read_getElem? array (by omega)]

theorem interleave4_right {p0 p1 p2 p3 : Slice k} (same : result.len = data.len) (cut : Cut data data.len p0 p1 p2 p3)
    (values : ∀ i < data.len, target[result.off + i]? = (data.read array)[groupedIndex data.len i]?)
    (mem : Vector UInt8 n) :
    ∃ mem', interleave4 result array p0 p1 p2 p3 mem = some mem' ∧ Toward target mem mem' ∧
      ∀ j < data.len / 4, ∀ c < 4, Right target mem' (result.off + (4 * j + c)) := by
  have len0 : p0.len = data.len / 4 := cut.len 0 (by decide)
  have len1 : p1.len = data.len / 4 := cut.len 1 (by decide)
  have len2 : p2.len = data.len / 4 := cut.len 2 (by decide)
  have len3 : p3.len = data.len / 4 := cut.len 3 (by decide)
  rw [interleave4, len0]
  apply checkedLoop_right (fun dst mem => dst.get mem 3) (fun dst i c => dst.assign c (nth p0 p1 p2 p3 c) array i)
    (fun i => result.off + i) (by omega)
  · exact fun some => ⟨p1.exists_get array (by omega), p2.exists_get array (by omega), p3.exists_get array (by omega),
      result.exists_get mem (by omega)⟩
  · exact fun dst mem long => dst.exists_get mem long
  · intro i inside dst off len c small mem
    have place : dst.off + c = result.off + (4 * i + c) := by omega
    have source := groupedIndex_lt (show 4 * i + c < data.len by omega)
    rw [← place]
    apply Slice.exists_assign
    · omega
    · rw [cut.len c small]
      exact inside
    · rw [place, values _ (by omega), (nth p0 p1 p2 p3 c).read_getElem? array (by rw [cut.len c small]; exact inside),
        cut.off c small, ← data.read_getElem? array source]

theorem scatterFrom_right {place source : Nat → Nat} {total : Nat}
    (inside : ∀ j < total, place j < result.len ∧ source j < data.len)
    (values : ∀ j < total, target[result.off + place j]? = (data.read array)[source j]?)
    {count j : Nat} (todo : j + count = total) (mem : Vector UInt8 n) :
    ∃ mem', scatterFrom result array data place source count j mem = some mem' ∧ Toward target mem mem' ∧
      ∀ i < total, j ≤ i → Right target mem' (result.off + place i) := by
  induction count generalizing j mem with
  | zero => exact ⟨mem, rfl, Toward.refl, fun i before since => absurd before (by omega)⟩
  | succ count ih =>
    obtain ⟨placed, read⟩ := inside j (by omega)
    obtain ⟨next, wrote, kept, here⟩ := result.exists_assign data mem placed read (values j (by omega))
    obtain ⟨mem', run, onward, later⟩ := ih (show j + 1 + count = total by omega) next
    refine ⟨mem', ?_, kept.trans onward, ?_⟩
    · simp only [scatterFrom, wrote, run, Option.bind_eq_bind, Option.bind_some]
    · intro i before since
      rcases Nat.eq_or_lt_of_le since with rfl | since
      · exact onward _ here
      · exact later i before since

end

section
variable {n k : Nat} (mem : Vector UInt8 n) (dst : Slice n) (array : Vector UInt8 k) (data : Slice k)

/-- What appending `bytes` to `dst` must leave: the destination extended by them, and nothing else changed. -/
structure Appends (bytes : Bytes) (after : Returned n) : Prop where
  ok : after.err = none
  off : after.dst.off = dst.off
  cap : after.dst.cap = dst.cap
  content : after.dst.read after.mem = dst.read mem ++ bytes
  frame : ∀ q, q < dst.off + dst.len ∨ dst.off + dst.len + bytes.length ≤ q → after.mem[q]? = mem[q]?

variable {mem dst}

theorem appends_nil : Appends mem dst [] ⟨dst, mem, none⟩ :=
  ⟨rfl, rfl, rfl, (List.append_nil _).symm, fun _ _ => rfl⟩

theorem appends_overlay {bytes : Bytes} {dst' : Slice n} (off : dst'.off = dst.off) (cap : dst'.cap = dst.cap)
    (len : dst'.len = dst.len + bytes.length) :
    Appends mem dst bytes ⟨dst', overlay mem (dst.off + dst.len) bytes, none⟩ :=
  ⟨rfl, off, cap, dst.read_overlay dst' mem off len, fun _ outside => overlay_outside mem outside⟩

variable (mem dst)

theorem eq_overlay_of_groups {bytes : Bytes} {start : Nat} {whole final : Vector UInt8 n} (place : Nat → Nat)
    (onto : ∀ q < bytes.length, ∃ i < bytes.length, place i = q)
    (kept : Toward (overlay mem start bytes) mem whole) (onward : Toward (overlay mem start bytes) whole final)
    (groups : ∀ j < bytes.length / 4, ∀ c < 4, Right (overlay mem start bytes) whole (start + place (4 * j + c)))
    (tail : ∀ j < bytes.length % 4, Right (overlay mem start bytes) final (start + place (4 * (bytes.length / 4) + j))) :
    final = overlay mem start bytes := by
  apply eq_overlay (kept.trans onward)
  intro q inside
  obtain ⟨i, bound, rfl⟩ := onto q inside
  have residue := Nat.mod_lt i (show 0 < 4 by decide)
  rw [← Nat.div_add_mod i 4]
  by_cases early : i / 4 < bytes.length / 4
  · exact onward _ (groups _ early _ residue)
  · have last : i / 4 = bytes.length / 4 := by omega
    rw [last]
    exact tail _ (by omega)

theorem apply_fills {result : Slice n} (same : result.len = data.len) :
    ∃ p0 p1 p2 p3 whole, planes result (data.len / 4) (data.len % 4) = some (p0, p1, p2, p3) ∧
      deinterleave4 p0 p1 p2 p3 array data mem = some whole ∧
      scatterFrom result array data (fun j => (j + 1) * (data.len / 4) + j) (fun j => 4 * (data.len / 4) + j)
        (data.len % 4) 0 whole = some (overlay mem result.off (Xorb.applyByteGrouping4 (data.read array))) := by
  have size := data.read_length array
  have length := applyByteGrouping4_length (data.read array)
  rw [size] at length
  have within := result.inside
  obtain ⟨p0, p1, p2, p3, planed, cut⟩ := exists_planes result
  rw [same] at planed cut
  have value : ∀ i < data.len, (overlay mem result.off (Xorb.applyByteGrouping4 (data.read array)))[
      result.off + groupedIndex data.len i]? = (data.read array)[i]? := by
    intro i inside
    rw [overlay_inside mem (by omega) (by rw [length]; exact groupedIndex_lt inside), ← size]
    exact applyByteGrouping4_getElem? (by omega)
  obtain ⟨whole, deinterleaved, kept, groups⟩ := deinterleave4_right cut value mem
  have places : ∀ j < data.len % 4, (j + 1) * (data.len / 4) + j < result.len ∧ 4 * (data.len / 4) + j < data.len := by
    intro j small
    rw [← groupedIndex_tail small, same]
    exact ⟨groupedIndex_lt (by omega), by omega⟩
  obtain ⟨final, scattered, onward, tail⟩ := scatterFrom_right places (fun j small => by
    rw [← groupedIndex_tail small]
    exact value _ (by omega)) (Nat.zero_add _) whole
  refine ⟨p0, p1, p2, p3, whole, planed, deinterleaved, ?_⟩
  rw [← length] at groups tail
  rw [scattered, eq_overlay_of_groups mem (groupedIndex _) (fun q => exists_groupedIndex) kept onward groups]
  intro j small
  rw [groupedIndex_tail small]
  exact tail j small (Nat.zero_le j)

theorem reverse_fills {result : Slice n} (same : result.len = data.len) :
    ∃ p0 p1 p2 p3 whole, planes data (data.len / 4) (data.len % 4) = some (p0, p1, p2, p3) ∧
      interleave4 result array p0 p1 p2 p3 mem = some whole ∧
      scatterFrom result array data (fun j => 4 * (data.len / 4) + j) (fun j => (j + 1) * (data.len / 4) + j)
        (data.len % 4) 0 whole = some (overlay mem result.off (Xorb.reverseByteGrouping4 (data.read array))) := by
  have size := data.read_length array
  have length := reverseByteGrouping4_length (data.read array)
  rw [size] at length
  have within := result.inside
  obtain ⟨p0, p1, p2, p3, planed, cut⟩ := exists_planes data
  have value : ∀ i < data.len, (overlay mem result.off (Xorb.reverseByteGrouping4 (data.read array)))[
      result.off + i]? = (data.read array)[groupedIndex data.len i]? := by
    intro i inside
    rw [overlay_inside mem (by omega) (by omega), ← size]
    exact reverseByteGrouping4_getElem? (by omega)
  obtain ⟨whole, interleaved, kept, groups⟩ := interleave4_right same cut value mem
  have places : ∀ j < data.len % 4, 4 * (data.len / 4) + j < result.len ∧ (j + 1) * (data.len / 4) + j < data.len := by
    intro j small
    rw [← groupedIndex_tail small, same]
    exact ⟨by omega, groupedIndex_lt (by omega)⟩
  obtain ⟨final, scattered, onward, tail⟩ := scatterFrom_right places (fun j small => by
    rw [← groupedIndex_tail small]
    exact value _ (by omega)) (Nat.zero_add _) whole
  refine ⟨p0, p1, p2, p3, whole, planed, interleaved, ?_⟩
  rw [← length] at groups tail
  rw [scattered, eq_overlay_of_groups mem id (fun q inside => ⟨q, inside, rfl⟩) kept onward groups]
  exact fun j small => tail j small (Nat.zero_le j)

theorem applyByteGrouping4_appends (room : dst.len + data.len ≤ dst.cap) :
    ∃ after, applyByteGrouping4 mem dst array data = some after ∧
      Appends mem dst (Xorb.applyByteGrouping4 (data.read array)) after := by
  have length := applyByteGrouping4_length (data.read array)
  rw [data.read_length array] at length
  rw [applyByteGrouping4]
  by_cases empty : data.len = 0
  · rw [if_pos empty, List.eq_nil_of_length_eq_zero (length.trans empty)]
    exact ⟨_, rfl, appends_nil⟩
  · obtain ⟨dst', result, grown, cut, off, len, cap, start, rest⟩ := dst.exists_grown room
    obtain ⟨p0, p1, p2, p3, whole, planed, moved, scattered⟩ := apply_fills mem array data rest
    refine ⟨_, ?_, appends_overlay off cap (len.trans (by rw [length]))⟩
    rw [if_neg empty, if_neg (by omega)]
    simp only [grown, cut, planed, moved, scattered, start, Option.bind_eq_bind, Option.bind_some]
    rfl

theorem reverseByteGrouping4_appends (room : dst.len + data.len ≤ dst.cap) :
    ∃ after, reverseByteGrouping4 mem dst array data = some after ∧
      Appends mem dst (Xorb.reverseByteGrouping4 (data.read array)) after := by
  have length := reverseByteGrouping4_length (data.read array)
  rw [data.read_length array] at length
  rw [reverseByteGrouping4]
  by_cases empty : data.len = 0
  · rw [if_pos empty, List.eq_nil_of_length_eq_zero (length.trans empty)]
    exact ⟨_, rfl, appends_nil⟩
  · obtain ⟨dst', result, grown, cut, off, len, cap, start, rest⟩ := dst.exists_grown room
    obtain ⟨p0, p1, p2, p3, whole, planed, moved, scattered⟩ := reverse_fills mem array data rest
    refine ⟨_, ?_, appends_overlay off cap (len.trans (by rw [length]))⟩
    rw [if_neg empty, if_neg (by omega)]
    simp only [grown, cut, planed, moved, scattered, start, Option.bind_eq_bind, Option.bind_some]
    rfl

variable {mem dst}

theorem Appends.read_part {bytes : Bytes} {after : Returned n} (appends : Appends mem dst bytes after)
    {part : Slice n} (off : part.off = dst.off + dst.len) (len : part.len = bytes.length) :
    part.read after.mem = bytes := by
  have size := congrArg List.length appends.content
  rw [Slice.read_length, List.length_append, Slice.read_length] at size
  apply List.ext_getElem?
  intro i
  by_cases inside : i < part.len
  · rw [part.read_getElem? _ inside, off, Nat.add_assoc, ← appends.off, ← after.dst.read_getElem? _ (by omega),
      appends.content, List.getElem?_append_right (by rw [Slice.read_length]; omega), Slice.read_length,
      Nat.add_sub_cancel_left]
  · rw [List.getElem?_eq_none (by rw [Slice.read_length]; omega), List.getElem?_eq_none (by omega)]

variable (mem dst)

/-- Both directions run without leaving their slices and append exactly the permuted bytes, each undoes the other, and
grouping sorts the bytes by their residue and keeps the order within a residue. -/
theorem byte_grouping_bijective (room : data.len ≤ dst.cap - dst.len) :
    (∃ after, applyByteGrouping4 mem dst array data = some after ∧
      Appends mem dst (Xorb.applyByteGrouping4 (data.read array)) after ∧
      ∀ {m : Nat} (mem' : Vector UInt8 m) (dst' : Slice m) (part : Slice n), part.off = dst.off + dst.len →
        part.len = data.len → data.len ≤ dst'.cap - dst'.len →
        ∃ back, reverseByteGrouping4 mem' dst' after.mem part = some back ∧
          Appends mem' dst' (data.read array) back) ∧
    (∃ after, reverseByteGrouping4 mem dst array data = some after ∧
      Appends mem dst (Xorb.reverseByteGrouping4 (data.read array)) after ∧
      ∀ {m : Nat} (mem' : Vector UInt8 m) (dst' : Slice m) (part : Slice n), part.off = dst.off + dst.len →
        part.len = data.len → data.len ≤ dst'.cap - dst'.len →
        ∃ back, applyByteGrouping4 mem' dst' after.mem part = some back ∧
          Appends mem' dst' (data.read array) back) ∧
    (∀ i < data.len, (Xorb.applyByteGrouping4 (data.read array))[groupedIndex data.len i]? = (data.read array)[i]?) ∧
    (∀ q < data.len, ∃ i < data.len, groupedIndex data.len i = q) ∧
    ∀ i < data.len, ∀ j < data.len, groupedIndex data.len i < groupedIndex data.len j ↔
      i % 4 < j % 4 ∨ i % 4 = j % 4 ∧ i < j := by
  have size := data.read_length array
  have destination := dst.len_le
  refine ⟨?_, ?_, ?_, fun q inside => exists_groupedIndex inside, fun i hi j hj => groupedIndex_lt_iff hi hj⟩
  · obtain ⟨after, run, appends⟩ := applyByteGrouping4_appends mem dst array data (by omega)
    refine ⟨after, run, appends, ?_⟩
    intro m mem' dst' part off len enough
    have second := dst'.len_le
    have grouped := appends.read_part off (by rw [applyByteGrouping4_length, size, len])
    obtain ⟨back, reversed, restored⟩ := reverseByteGrouping4_appends mem' dst' after.mem part (by omega)
    rw [grouped, reverse_applyByteGrouping4] at restored
    exact ⟨back, reversed, restored⟩
  · obtain ⟨after, run, appends⟩ := reverseByteGrouping4_appends mem dst array data (by omega)
    refine ⟨after, run, appends, ?_⟩
    intro m mem' dst' part off len enough
    have second := dst'.len_le
    have ungrouped := appends.read_part off (by rw [reverseByteGrouping4_length, size, len])
    obtain ⟨back, applied, restored⟩ := applyByteGrouping4_appends mem' dst' after.mem part (by omega)
    rw [ungrouped, apply_reverseByteGrouping4] at restored
    exact ⟨back, applied, restored⟩
  · intro i inside
    rw [← size] at inside ⊢
    exact applyByteGrouping4_getElem? inside

end

theorem six_bytes_grouped :
    ∃ after, applyByteGrouping4 (Vector.replicate 9 255) ⟨1, 1, 8, by decide, by decide⟩ #v[1, 2, 3, 4, 5, 6]
      ⟨0, 6, 6, by decide, by decide⟩ = some after ∧ after.dst.read after.mem = [255, 1, 5, 2, 6, 3, 4] := by
  obtain ⟨⟨after, run, appends, _⟩, _⟩ := byte_grouping_bijective (Vector.replicate 9 255)
    ⟨1, 1, 8, by decide, by decide⟩ #v[1, 2, 3, 4, 5, 6] ⟨0, 6, 6, by decide, by decide⟩ (by decide)
  exact ⟨after, run, appends.content.trans (by decide +kernel)⟩

end Xet.Xorb.InPlace
