import Xet.Xorb.Footer

/-! The byte range of a run of chunks, by a walk over the chunk headers and by the table that a full
walk builds. Both walks seek past the chunk data, also past the end of a cut stream. -/
namespace Xet.Xorb
open Wire Segments List Nat

inductive ScanRangeError where
  | invalid (chunkStart chunkEnd : Nat)
  | readHeader (e : ReadError)
  | footer (chunkEnd totalChunks : Nat)
  deriving DecidableEq

/-- The loop of `ChunkDataRange` at chunk `idx`, whose header starts at `offset`. -/
def rangeLoop (chunkStart chunkEnd : Nat) : Nat → Nat → Nat → Nat → Bytes → Except ScanRangeError (Int × Int)
  | 0, _, _, _, _ => .error (.readHeader .eof)
  | fuel + 1, idx, offset, startByte, r =>
    match readFull chunkHeaderSize r with
    | .error e => .error (.readHeader e)
    | .ok (header, r) =>
      if header.take 7 = xorbIdentifier then .error (.footer chunkEnd idx)
      else
        let compressedSize := leNat (slice header 1 3)
        let next := offset + (8 + compressedSize)
        let startByte := if idx = chunkStart then offset else startByte
        if idx = chunkEnd - 1 then .ok (startByte, (next : Int) - 1)
        else rangeLoop chunkStart chunkEnd fuel (idx + 1) next startByte (r.drop compressedSize)

/-- The inclusive byte range of chunks `chunkStart` up to `chunkEnd` of a stream. -/
def chunkDataRange (b : Bytes) (chunkStart chunkEnd : Nat) : Except ScanRangeError (Int × Int) := do
  require (chunkStart < chunkEnd) (.invalid chunkStart chunkEnd)
  rangeLoop chunkStart chunkEnd (b.length + 1) 0 0 0 b

/-- The chunk ends that a walk over the headers of `r` finds, the first header being at `offset`. -/
inductive Walk : Nat → Bytes → List Nat → Prop
  | done {offset : Nat} {r : Bytes} (ended : readFull chunkHeaderSize r = .error .eof) : Walk offset r []
  | footer {offset : Nat} {r header rest : Bytes} (read : readFull chunkHeaderSize r = .ok (header, rest))
      (found : header.take 7 = xorbIdentifier) : Walk offset r []
  | chunk {offset : Nat} {r header rest : Bytes} {ends : List Nat} (read : readFull chunkHeaderSize r = .ok (header, rest))
      (other : header.take 7 ≠ xorbIdentifier)
      (later : Walk (offset + (8 + leNat (slice header 1 3))) (rest.drop (leNat (slice header 1 3))) ends) :
      Walk offset r ((offset + (8 + leNat (slice header 1 3))) :: ends)

theorem drop_length_lt {r header rest : Bytes} (read : readFull chunkHeaderSize r = .ok (header, rest)) (n : Nat) :
    (rest.drop n).length < r.length := by
  obtain ⟨rfl, size⟩ := readFull_eq_ok.mp read
  rw [length_drop, length_append, size, chunkHeaderSize]
  omega

theorem scanLoop_walk {fuel count offset : Nat} {r : Bytes} {ends : List Nat} (enough : r.length < fuel)
    (scanned : scanLoop fuel count offset r = .ok ends) : Walk offset r ends := by
  induction fuel generalizing count offset r ends with
  | zero => exact absurd enough (not_lt_zero _)
  | succ fuel ih =>
    rw [scanLoop] at scanned
    split at scanned
    · rename_i ended
      cases scanned
      exact .done ended
    · cases scanned
    · rename_i header rest read
      split at scanned
      · rename_i found
        cases scanned
        exact .footer read found
      · rename_i other
        obtain ⟨-, -, scanned⟩ := bind_eq_ok.mp scanned
        obtain ⟨later, tail, scanned⟩ := bind_eq_ok.mp scanned
        cases scanned
        have less := drop_length_lt read (leNat (slice header 1 3))
        exact .chunk read other (ih (by omega) tail)

/-- The start of chunk `start` when chunk `idx` starts at `offset`; `startByte` if it lies before. -/
def startFrom (idx offset startByte : Nat) (ends : List Nat) (start : Nat) : Nat :=
  if start < idx then startByte else if start = idx then offset else ends.getD (start - idx - 1) 0

variable {offset : Nat} {r : Bytes} {ends : List Nat}

theorem rangeLoop_walk (walk : Walk offset r ends) {start stop : Nat}
    (idx fuel startByte : Nat) (enough : r.length < fuel) (ahead : idx < stop) (order : start < stop) :
    (stop ≤ idx + ends.length → rangeLoop start stop fuel idx offset startByte r =
      .ok (startFrom idx offset startByte ends start, (ends.getD (stop - idx - 1) 0 : Int) - 1)) ∧
    (idx + ends.length < stop → ∃ e, rangeLoop start stop fuel idx offset startByte r = .error e) := by
  induction walk generalizing idx fuel startByte with
  | done ended =>
    obtain ⟨fuel, rfl⟩ : ∃ n, fuel = n + 1 := ⟨fuel - 1, by omega⟩
    refine ⟨fun short => absurd short (by simp; omega), fun _ => ?_⟩
    rw [rangeLoop, ended]
    exact ⟨_, rfl⟩
  | footer read found =>
    obtain ⟨fuel, rfl⟩ : ∃ n, fuel = n + 1 := ⟨fuel - 1, by omega⟩
    refine ⟨fun short => absurd short (by simp; omega), fun _ => ?_⟩
    rw [rangeLoop, read]
    exact ⟨_, if_pos found⟩
  | @chunk offset r header rest ends read other later ih =>
    obtain ⟨fuel, rfl⟩ : ∃ n, fuel = n + 1 := ⟨fuel - 1, by omega⟩
    have less := drop_length_lt read (leNat (slice header 1 3))
    rw [rangeLoop, read]
    dsimp only
    rw [if_neg other]
    by_cases last : idx = stop - 1
    · rw [if_pos last]
      constructor
      · intro _
        have here : stop - idx - 1 = 0 := by omega
        rw [here, getD_cons_zero, startFrom]
        by_cases first : idx = start
        · rw [if_pos first, if_neg (by omega), if_pos first.symm]
        · rw [if_neg first, if_pos (by omega)]
      · intro short
        rw [length_cons] at short
        omega
    · rw [if_neg last]
      obtain ⟨found, missing⟩ := ih (idx + 1) fuel (if idx = start then offset else startByte) (by omega) (by omega)
      rw [length_cons]
      refine ⟨fun inside => ?_, fun short => missing (by omega)⟩
      rw [found (by omega)]
      have index : stop - idx - 1 = stop - (idx + 1) - 1 + 1 := by omega
      rw [index, getD_cons_succ]
      congr 3
      rw [startFrom, startFrom]
      by_cases before : start < idx
      · rw [if_pos (by omega), if_pos before, if_neg (by omega)]
      · rw [if_neg before]
        by_cases here : start = idx
        · rw [if_pos (by omega), if_pos here.symm, if_pos here]
        · rw [if_neg (by omega), if_neg here]
          by_cases next : start = idx + 1
          · rw [if_pos next, next, Nat.add_sub_cancel_left]
            rfl
          · have place : start - idx - 1 = start - (idx + 1) - 1 + 1 := by omega
            rw [if_neg next, place, getD_cons_succ]

theorem Walk.increasing (walk : Walk offset r ends) {i : Nat}
    (inside : i < ends.length) : startFrom 0 offset 0 ends i + 8 ≤ ends.getD i 0 := by
  induction walk generalizing i with
  | done => cases inside
  | footer => cases inside
  | @chunk offset r header rest ends read other later ih =>
    cases i with
    | zero =>
      rw [getD_cons_zero, startFrom]
      simp only [lt_irrefl, if_false, if_true]
      omega
    | succ i =>
      have step := ih (lt_of_succ_lt_succ inside)
      rw [getD_cons_succ]
      cases i with
      | zero => simpa [startFrom] using step
      | succ i => simpa [startFrom] using step

def tableStart (offs : List Nat) (k : Nat) : Nat := if 0 < k then offs.getD (k - 1) 0 else 0

theorem startFrom_zero (offs : List Nat) (k : Nat) : startFrom 0 0 0 offs k = tableStart offs k := by
  cases k with
  | zero => rfl
  | succ k => rfl

section
variable {b : Bytes} {offs : List Nat} (scanned : scanChunkOffsets b = .ok offs)
include scanned

theorem scanned_walk : Walk 0 b offs := scanLoop_walk (lt_succ_self _) scanned

theorem chunkDataRange_scanned {start stop : Nat} (order : start < stop) (inside : stop ≤ offs.length) :
    chunkDataRange b start stop = .ok (tableStart offs start, (tableStart offs stop : Int) - 1) := by
  have found := (rangeLoop_walk (scanned_walk scanned) 0 (b.length + 1) 0 (lt_succ_self _) (by omega) order).1 (by omega)
  rw [chunkDataRange, require_true order, ok_bind, found, startFrom_zero]
  have last : tableStart offs stop = offs.getD (stop - 0 - 1) 0 := if_pos (by omega)
  rw [last]

theorem chunkDataRange_beyond {start stop : Nat} (order : start < stop) (beyond : offs.length < stop) :
    ∃ e, chunkDataRange b start stop = .error e := by
  obtain ⟨e, failed⟩ :=
    (rangeLoop_walk (scanned_walk scanned) 0 (b.length + 1) 0 (lt_succ_self _) (by omega) order).2 (by omega)
  exact ⟨e, by rw [chunkDataRange, require_true order, ok_bind, failed]⟩

theorem chunkDataRange_eq_ok {start stop : Nat} {range : Int × Int} (found : chunkDataRange b start stop = .ok range) :
    start < stop ∧ stop ≤ offs.length ∧ range = (↑(tableStart offs start), (tableStart offs stop : Int) - 1) := by
  have order : start < stop := by
    rw [chunkDataRange] at found
    exact (require_eq_ok.mp (bind_eq_ok.mp found).choose_spec.1)
  by_cases inside : stop ≤ offs.length
  · rw [chunkDataRange_scanned scanned order inside] at found
    cases found
    exact ⟨order, inside, rfl⟩
  · obtain ⟨e, failed⟩ := chunkDataRange_beyond scanned order (not_le.mp inside)
    cases failed.symm.trans found

theorem tableStart_lt {i j : Nat} (order : i < j) (inside : j ≤ offs.length) : tableStart offs i < tableStart offs j := by
  have step : ∀ k < offs.length, tableStart offs k < tableStart offs (k + 1) := by
    intro k less
    have := (scanned_walk scanned).increasing less
    rw [startFrom_zero] at this
    change tableStart offs k < offs.getD k 0
    omega
  induction j with
  | zero => cases order
  | succ j ih =>
    rcases Nat.lt_succ_iff_lt_or_eq.mp order with less | rfl
    · exact (ih less (by omega)).trans (step j (by omega))
    · exact step i (by omega)

theorem tiles_bytes {low high : Nat} {parts : List (Nat × Nat)} (tiles : Tiles low high parts) (inside : high ≤ offs.length) :
    Tiles (tableStart offs low) (tableStart offs high) (parts.map fun p => (tableStart offs p.1, tableStart offs p.2)) := by
  induction parts generalizing low with
  | nil => exact congrArg (tableStart offs) tiles
  | cons part rest ih =>
    obtain ⟨first, proper, later⟩ := tiles
    exact ⟨congrArg (tableStart offs) first, tableStart_lt scanned proper (later.le.trans inside), ih later⟩

end

theorem table_range {offs : List Nat} {start stop : Nat} (order : start < stop) (inside : stop ≤ offs.length) :
    chunkDataRangeFromOffsets offs start stop = .ok (tableStart offs start, (tableStart offs stop : Int) - 1) := by
  have last : tableStart offs stop = offs.getD (stop - 1) 0 := if_pos (by omega)
  rw [chunkDataRangeFromOffsets, require_true order, ok_bind, require_true inside, ok_bind, last]
  rfl

theorem tableStart_length (offs : List Nat) : tableStart offs offs.length = offs.getLast?.getD 0 := by
  cases offs with
  | nil => rfl
  | cons n rest => simp [tableStart, getLast?_eq_getElem?, getD_eq_getElem?_getD]

/-- A walk that stops at the last chunk asked for and the table of a full walk give the same byte
ranges, and the ranges of consecutive runs of chunks cover the chunk bytes, each byte once. -/
theorem scan_and_table_agree {b : Bytes} {offs : List Nat} (scanned : scanChunkOffsets b = .ok offs) :
    (∀ start stop, start < stop → stop ≤ offs.length → ∃ range,
      chunkDataRange b start stop = .ok range ∧ chunkDataRangeFromOffsets offs start stop = .ok range) ∧
    (∀ start stop, start < stop → offs.length < stop →
      (∃ e, chunkDataRange b start stop = .error e) ∧ ∃ e, chunkDataRangeFromOffsets offs start stop = .error e) ∧
    (∀ start mid stop first second, chunkDataRange b start mid = .ok first → chunkDataRange b mid stop = .ok second →
      second.1 = first.2 + 1) ∧
    ∀ parts, Tiles 0 offs.length parts → ∃ ranges : List (Nat × Nat),
      parts.mapM (fun p => chunkDataRange b p.1 p.2) = .ok (ranges.map fun r => (↑r.1, (r.2 : Int) - 1)) ∧
      Tiles 0 (offs.getLast?.getD 0) ranges ∧
      ∀ n < offs.getLast?.getD 0, ∃! r, r ∈ ranges ∧ r.1 ≤ n ∧ n < r.2 := by
  refine ⟨?_, ?_, ?_, ?_⟩
  · intro start stop order inside
    exact ⟨_, chunkDataRange_scanned scanned order inside, table_range order inside⟩
  · intro start stop order beyond
    refine ⟨chunkDataRange_beyond scanned order beyond, .outOfBounds start stop offs.length, ?_⟩
    rw [chunkDataRangeFromOffsets, require_true order, ok_bind, require_false (Nat.not_le.mpr beyond)]
    rfl
  · intro start mid stop first second found next
    obtain ⟨-, -, rfl⟩ := chunkDataRange_eq_ok scanned found
    obtain ⟨-, -, rfl⟩ := chunkDataRange_eq_ok scanned next
    exact (Int.sub_add_cancel _ _).symm
  · intro parts tiles
    have bytes := tiles_bytes scanned tiles le_rfl
    rw [tableStart_length] at bytes
    refine ⟨_, ?_, bytes, fun n less => bytes.existsUnique (Nat.zero_le n) less⟩
    rw [List.map_map]
    refine mapM_eq_ok_map fun part member => ?_
    obtain ⟨-, proper, high⟩ := tiles.within member
    exact chunkDataRange_scanned scanned proper high

/-- One chunk of one byte, and the header of a chunk of two bytes whose data is cut. -/
def cutChunks : Bytes := [0, 1, 0, 0, 0, 1, 0, 0, 7, 0, 2, 0, 0, 0, 2, 0, 0]

theorem cut_chunks_agree : scanChunkOffsets cutChunks = .ok [9, 19] ∧
    ∃ range, chunkDataRange cutChunks 1 2 = .ok range ∧ chunkDataRangeFromOffsets [9, 19] 1 2 = .ok range := by
  have scanned : scanChunkOffsets cutChunks = .ok [9, 19] := by rfl
  exact ⟨scanned, (scan_and_table_agree scanned).1 1 2 (by decide) (by decide)⟩

end Xet.Xorb
