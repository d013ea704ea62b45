import Xet.Lib.Wire

/-! A byte source that delivers its content in arbitrary non-empty reads, and the buffered
reader in front of it. What a client of the buffer sees is the unread content alone:
`peek` shows a non-empty window of it, or the end, and never changes it. -/
namespace Wire
open List

/-- `sizes` chooses how much each coming read delivers, clipped to what is asked for and left.
With `endsWithData` the read that delivers the last bytes reports the end at once. -/
structure Source where
  data : Bytes
  sizes : List Nat
  endsWithData : Bool

/-- One read into a buffer of `room` bytes: the bytes, whether the end is reported, the rest. -/
def Source.read (s : Source) (room : Nat) : Bytes × Bool × Source :=
  if s.data = [] then ([], true, s)
  else
    let n := min (min room s.data.length) (max 1 (s.sizes.headD room))
    (s.data.take n, s.endsWithData && (s.data.drop n).isEmpty,
      { s with data := s.data.drop n, sizes := s.sizes.tail })

theorem Source.read_data (s : Source) (room : Nat) : (s.read room).1 ++ (s.read room).2.2.data = s.data := by
  unfold Source.read
  split
  · rename_i empty; simp [empty]
  · exact take_append_drop _ _

theorem Source.read_progress {s : Source} {room : Nat} (positive : 0 < room) (more : s.data ≠ []) :
    (s.read room).1 ≠ [] := by
  have len := length_pos_iff.mpr more
  unfold Source.read
  rw [if_neg more]
  simp only [ne_eq, take_eq_nil_iff, more, or_false]
  omega

theorem Source.read_end {s : Source} {room : Nat} (reported : (s.read room).2.1 = true) :
    (s.read room).2.2.data = [] := by
  unfold Source.read at reported ⊢
  split
  · assumption
  · rename_i more
    rw [if_neg more] at reported
    simp only [Bool.and_eq_true, List.isEmpty_iff] at reported
    exact reported.2

/-- The buffered reader: unread bytes, a pending end of input, the source behind. -/
structure Buffered where
  buf : Bytes
  ended : Bool
  src : Source

def defaultBufSize : Nat := 4096

def Buffered.new (src : Source) : Buffered := ⟨[], false, src⟩

def Buffered.unread (b : Buffered) : Bytes := b.buf ++ b.src.data

/-- A pending end is only ever recorded once the source is drained. -/
def Buffered.Settled (b : Buffered) : Prop := b.ended = true → b.src.data = []

def Buffered.fill (b : Buffered) : Buffered :=
  if b.buf = [] ∧ b.ended = false then
    let (data, ended, src) := b.src.read defaultBufSize
    ⟨data, ended, src⟩
  else b

/-- Peek at least one byte: the whole buffered window, or `none` at the end of input,
which clears the pending error as reading it does. -/
def Buffered.peek (b : Buffered) : Option Bytes × Buffered :=
  let b := b.fill
  if b.buf = [] then (none, { b with ended := false }) else (some b.buf, b)

def Buffered.discard (b : Buffered) (n : Nat) : Buffered := { b with buf := b.buf.drop n }

theorem Buffered.new_settled (src : Source) : (Buffered.new src).Settled := by
  intro h
  cases h

variable {b : Buffered}

theorem Buffered.fill_spec (settled : b.Settled) :
    b.fill.Settled ∧ b.fill.unread = b.unread ∧ (b.unread ≠ [] → b.fill.buf ≠ []) := by
  unfold Buffered.fill
  split
  · rename_i empty
    refine ⟨fun h => Source.read_end h, ?_, ?_⟩
    · simp only [Buffered.unread, empty.1, nil_append]
      exact Source.read_data b.src defaultBufSize
    · intro more
      simp only [Buffered.unread, empty.1, nil_append] at more
      exact Source.read_progress (by decide) more
  · rename_i full
    refine ⟨settled, rfl, fun more empty => ?_⟩
    have ended : b.ended = true := by
      cases h : b.ended with
      | true => rfl
      | false => exact absurd ⟨empty, h⟩ full
    exact more (by rw [Buffered.unread, empty, settled ended]; rfl)

theorem Buffered.peek_spec (settled : b.Settled) :
    b.peek.2.Settled ∧ b.peek.2.unread = b.unread ∧
      ((b.peek.1 = none ∧ b.unread = []) ∨
        ∃ w, b.peek.1 = some w ∧ w ≠ [] ∧ b.peek.2.buf = w) := by
  obtain ⟨hs, hu, hp⟩ := Buffered.fill_spec settled
  simp only [Buffered.peek]
  split
  · rename_i empty
    have drained : b.unread = [] := by
      by_contra more
      exact hp more empty
    exact ⟨fun h => Bool.noConfusion h, hu, .inl ⟨rfl, drained⟩⟩
  · rename_i more
    exact ⟨hs, hu, .inr ⟨_, rfl, more, rfl⟩⟩

theorem Buffered.discard_settled (settled : b.Settled) (n : Nat) :
    (b.discard n).Settled := settled

theorem Buffered.discard_unread (b : Buffered) (n : Nat) : b.buf.take n ++ (b.discard n).unread = b.unread := by
  simp only [Buffered.discard, Buffered.unread, ← append_assoc, take_append_drop]

end Wire
