import Xet.Lib.Calls
import Xet.Lib.Wire

/-! Files as byte strings: positional reads and writes, programs that write, and the checksum crc32.
A write may reach the file in several pieces, so that a program that is stopped can leave a part
of one. -/
namespace File
open Wire Calls List

def readAt (f : Bytes) (off n : Nat) : Option Bytes :=
  if n = 0 ∨ off + n ≤ f.length then some ((f.drop off).take n) else none

def writeAt (f data : Bytes) (off : Nat) : Bytes :=
  f.take off ++ List.replicate (off - f.length) 0 ++ data ++ f.drop (off + data.length)

def truncate (f : Bytes) (size : Nat) : Bytes := f.take size ++ List.replicate (size - f.length) 0

variable {off : Nat}

theorem readAt_middle {a b c : Bytes} {n : Nat} (start : off = a.length) (size : n = b.length) :
    readAt (a ++ (b ++ c)) off n = some b := by
  subst start size
  rw [readAt, if_pos (by simp only [length_append]; omega), drop_left, take_left]

theorem writeAt_append (lead rest data : Bytes) :
    writeAt (lead ++ rest) data lead.length = lead ++ (data ++ rest.drop data.length) := by
  have inside : lead.length - (lead ++ rest).length = 0 := by
    rw [length_append]
    omega
  rw [writeAt, inside, take_left, replicate_zero, append_nil, append_assoc, ← drop_drop, drop_left]

variable {f : Bytes}

theorem exists_split (inside : off ≤ f.length) : ∃ lead rest, f = lead ++ rest ∧ off = lead.length :=
  ⟨f.take off, f.drop off, (take_append_drop off f).symm, by rw [length_take, Nat.min_eq_left inside]⟩

theorem writeAt_nil (inside : off ≤ f.length) : writeAt f [] off = f := by
  obtain ⟨lead, rest, rfl, rfl⟩ := exists_split inside
  rw [writeAt_append]
  rfl

theorem writeAt_end (f data : Bytes) : writeAt f data f.length = f ++ data := by
  have whole := writeAt_append f [] data
  rwa [append_nil, drop_nil, append_nil] at whole

theorem writeAt_empty (data : Bytes) : writeAt [] data 0 = data := writeAt_end [] data

theorem writeAt_front (old rest : Bytes) {data : Bytes} (fits : data.length ≤ old.length) :
    writeAt (old ++ rest) data 0 = data ++ (old.drop data.length ++ rest) := by
  have whole := writeAt_append [] (old ++ rest) data
  rwa [nil_append, length_nil, nil_append, drop_append_of_le_length fits] at whole

theorem le_writeAt_length (inside : off ≤ f.length) (data : Bytes) :
    off + data.length ≤ (writeAt f data off).length := by
  obtain ⟨lead, rest, rfl, rfl⟩ := exists_split inside
  rw [writeAt_append]
  simp only [length_append]
  omega

theorem writeAt_writeAt (inside : off ≤ f.length) (a b : Bytes) :
    writeAt (writeAt f a off) b (off + a.length) = writeAt f (a ++ b) off := by
  obtain ⟨lead, rest, rfl, rfl⟩ := exists_split inside
  rw [writeAt_append, writeAt_append, ← append_assoc, ← length_append, writeAt_append, drop_drop,
    length_append, append_assoc, append_assoc]

theorem truncate_zero (f : Bytes) : truncate f 0 = [] := by
  rw [truncate, Nat.zero_sub, take_zero]
  rfl

inductive Op where
  | truncate (size : Nat)
  | writeAt (data : Bytes) (off : Nat)

def perform : (op : Op) → Bytes → Unit × Bytes
  | .truncate size, f => ((), truncate f size)
  | .writeAt data off, f => ((), writeAt f data off)

abbrev FileProg := Prog Op fun _ => Unit

structure Pieces where
  cut : Bytes → List Bytes
  whole : ∀ data, (cut data).flatten = data

def Pieces.atOnce : Pieces := ⟨fun data => [data], fun data => by simp⟩

theorem Pieces.take_eq (pieces : Pieces) (data : Bytes) (i : Nat) :
    ∃ m ≤ data.length, ((pieces.cut data).take i).flatten = data.take m := by
  have split := congrArg List.flatten (take_append_drop i (pieces.cut data))
  rw [flatten_append, pieces.whole] at split
  have lead : ((pieces.cut data).take i).flatten <+: data := ⟨_, split⟩
  exact ⟨_, lead.length_le, prefix_iff_eq_take.mp lead⟩

theorem Pieces.flatten_flatMap (pieces : Pieces) (datas : List Bytes) :
    (datas.flatMap pieces.cut).flatten = datas.flatten := by
  induction datas with
  | nil => rfl
  | cons data rest ih => rw [flatMap_cons, flatten_append, flatten_cons, pieces.whole, ih]

def writePieces : List Bytes → Nat → FileProg Unit
  | [], _ => pure ()
  | piece :: rest, off => do
    Prog.perform (.writeAt piece off)
    writePieces rest (off + piece.length)

def write (pieces : Pieces) (data : Bytes) (off : Nat) : FileProg Unit := writePieces (pieces.cut data) off

variable {I : Bytes → Prop} {Q : Unit → Bytes → Prop}

theorem writePieces_meets (ps : List Bytes) (inside : off ≤ f.length)
    (each : ∀ i, I (writeAt f (ps.take i).flatten off)) (ended : Q () (writeAt f ps.flatten off)) :
    (writePieces ps off).Meets perform I Q f := by
  induction ps generalizing f off with
  | nil =>
    rw [flatten_nil, writeAt_nil inside] at ended
    exact ended
  | cons piece rest ih =>
    have next : Prog.Meets perform I Q (writePieces rest (off + piece.length)) (writeAt f piece off) := by
      apply ih (le_writeAt_length inside piece)
      · intro i
        rw [writeAt_writeAt inside]
        simpa only [take_succ_cons, flatten_cons] using each (i + 1)
      · rw [writeAt_writeAt inside]
        simpa only [flatten_cons] using ended
    have first := each 1
    simp only [take_succ_cons, take_zero, flatten_cons, flatten_nil, append_nil] at first
    exact ⟨first, next⟩

theorem write_meets (pieces : Pieces) {data : Bytes} (inside : off ≤ f.length)
    (each : ∀ i, I (writeAt f ((pieces.cut data).take i).flatten off)) (ended : Q () (writeAt f data off)) :
    (write pieces data off).Meets perform I Q f := by
  apply writePieces_meets _ inside each
  rwa [pieces.whole]

theorem write_run (pieces : Pieces) (data f : Bytes) : (write pieces data f.length).run perform f = ((), f ++ data) := by
  have ended : (write pieces data f.length).Meets perform (fun _ => True) (fun _ t => t = f ++ data) f :=
    write_meets pieces le_rfl (fun _ => trivial) (writeAt_end f data)
  exact Prod.ext rfl ended.run

theorem write_stopped (pieces : Pieces) (data f : Bytes) (i : Nat) :
    (write pieces data f.length).stopped perform i f = f ++ ((pieces.cut data).take i).flatten := by
  rw [write]
  generalize pieces.cut data = ps
  induction ps generalizing f i with
  | nil => cases i <;> simp [writePieces, Prog.stopped, pure]
  | cons piece rest ih =>
    cases i with
    | zero => simp [Prog.stopped_zero]
    | succ i =>
      have next := ih (f ++ piece) i
      rw [length_append, append_assoc] at next
      rw [take_succ_cons, flatten_cons, ← next, ← writeAt_end]
      rfl

theorem truncate_meets (empty : I []) (ended : Q () []) :
    (Prog.perform (.truncate 0) : FileProg Unit).Meets perform I Q f := by
  refine Prog.meets_perform.mpr ?_
  simp only [perform, truncate_zero]
  exact ⟨empty, ended⟩

def crcBit (c : UInt32) : UInt32 := if c &&& 1 = 1 then (c >>> 1) ^^^ 0xedb88320 else c >>> 1

def crcByte (c : UInt32) (b : UInt8) : UInt32 := (List.range 8).foldl (fun c _ => crcBit c) (c ^^^ b.toUInt32)

def crc32 (sum : UInt32) (data : Bytes) : UInt32 := ~~~ data.foldl crcByte (~~~ sum)

theorem crc32_append (sum : UInt32) (a b : Bytes) : crc32 (crc32 sum a) b = crc32 sum (a ++ b) := by
  rw [crc32, crc32, crc32, UInt32.not_not, foldl_append]

theorem crc32_nil (sum : UInt32) : crc32 sum [] = sum := by
  rw [crc32, foldl_nil, UInt32.not_not]

/-- The checksum of `123456789` that is published with the polynomial. -/
example : crc32 0 [49, 50, 51, 52, 53, 54, 55, 56, 57] = 0xcbf43926 := by decide +kernel

end File
