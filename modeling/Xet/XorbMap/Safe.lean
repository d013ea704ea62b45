import Mathlib.Data.Finset.Card
import Xet.XorbMap.Invariant

/-! Mappings of xorb files are never unmapped in use and never leak, and neither are the local copies behind them. -/
namespace Xet.XorbMap
open Tally RefCount Shared Thread

variable {H : Type} [DecidableEq H] {max m : Nat} {s s' : Shared H} {t t' : Thread H} {ts : Multiset (Thread H)}

def Shared.unreleased (s : Shared H) (h : H) : Finset Nat :=
  (Finset.range s.next).filter fun m => (s.maps m).hash = h ∧ (s.maps m).hooks = 0

@[simp] theorem mem_unreleased {h : H} : m ∈ s.unreleased h ↔ m < s.next ∧ (s.maps m).hash = h ∧ (s.maps m).hooks = 0 := by
  simp [unreleased]

/-- The copies are counted, and there is one only where something of it is open. -/
structure Copies (s : Shared H) : Prop where
  live : ∀ h, s.live h = (s.unreleased h).card
  files : ∀ h, s.files h = true → 0 < s.live h

theorem unreleased_congr (next : s'.next = s.next) (maps : ∀ m, (s'.maps m).hash = (s.maps m).hash ∧
    (s'.maps m).hooks = (s.maps m).hooks) (h : H) : s'.unreleased h = s.unreleased h := by
  simp only [unreleased, next, maps]

theorem Copies.congr (copies : Copies s) (next : s'.next = s.next) (maps : ∀ m, (s'.maps m).hash = (s.maps m).hash ∧
    (s'.maps m).hooks = (s.maps m).hooks) (live : s'.live = s.live) (files : s'.files = s.files) : Copies s' := by
  constructor
  · intro h
    rw [live, unreleased_congr next maps]
    exact copies.live h
  · rw [live, files]
    exact copies.files

theorem Copies.opened (copies : Copies s) (h : H) : Copies (s.opened h) := by
  have set : ∀ q, (s.opened h).unreleased q = if q = h then insert s.next (s.unreleased q) else s.unreleased q := by
    intro q
    ext m
    have next : (s.opened h).next = s.next + 1 := rfl
    have below : m < s.next + 1 ↔ m = s.next ∨ m < s.next := by omega
    rw [mem_unreleased, opened_maps, next, below]
    by_cases here : m = s.next
    · by_cases same : q = h
      · simp [here, same]
      · simp [here, same, Ne.symm same]
    · rw [if_neg here]
      split <;> simp [here]
  have fresh : ∀ q, s.next ∉ s.unreleased q := by simp
  have live : ∀ q, (s.opened h).live q = if q = h then s.live q + 1 else s.live q := by
    intro q
    by_cases same : q = h <;> simp [Shared.opened, downloadXorb, same]
  constructor
  · intro q
    rw [live, set, copies.live]
    split
    · rw [Finset.card_insert_of_notMem (fresh q)]
    · rfl
  · intro q there
    rw [live]
    by_cases same : q = h
    · rw [if_pos same]
      exact Nat.succ_pos _
    · rw [if_neg same]
      exact copies.files q (by simpa [Shared.opened, downloadXorb, same] using there)

theorem removeXorbFile_live (s : Shared H) (h q : H) :
    (s.removeXorbFile h).live q = if q = h then s.live h - 1 else s.live q := by
  rw [removeXorbFile]
  split
  · exact Function.update_apply ..
  · have last : s.live h - 1 = 0 := by omega
    rw [last]
    exact Function.update_apply ..

theorem removeXorbFile_files {h q : H} (there : (s.removeXorbFile h).files q = true) :
    s.files q = true ∧ (q = h → 0 < s.live h - 1) := by
  rw [removeXorbFile] at there
  split at there
  · exact ⟨there, fun _ => ‹_›⟩
  · by_cases same : q = h
    · simp [same] at there
    · exact ⟨by simpa [same] using there, fun here => absurd here same⟩

theorem Copies.runHook (copies : Copies s) (below : m < s.next) (first : (s.maps m).hooks = 0) : Copies (s.runHook m) := by
  have set : ∀ q, (s.runHook m).unreleased q =
      if q = (s.maps m).hash then (s.unreleased q).erase m else s.unreleased q := by
    intro q
    ext k
    by_cases here : k = m
    · subst here
      by_cases same : q = (s.maps k).hash
      · simp [same]
      · simp [same, Ne.symm same]
    · split <;> simp [here]
  have live : ∀ q, (s.runHook m).live q = if q = (s.maps m).hash then s.live (s.maps m).hash - 1 else s.live q :=
    removeXorbFile_live _ _
  constructor
  · intro q
    rw [live, set]
    by_cases same : q = (s.maps m).hash
    · have member : m ∈ s.unreleased q := by simp [below, same, first]
      rw [if_pos same, if_pos same, Finset.card_erase_of_mem member, ← same, copies.live]
    · rw [if_neg same, if_neg same, copies.live]
  · intro q there
    obtain ⟨before, more⟩ := removeXorbFile_files there
    rw [live]
    split
    · exact more ‹_›
    · exact copies.files q before

theorem Inv.hook_first (inv : Inv s (t ::ₘ ts)) (busy : t.busy m ≠ 0) : m < s.next ∧ (s.maps m).hooks = 0 := by
  obtain ⟨-, -, opened, closes⟩ := (inv.balanced m).in_hand (by simp only [books, tally_cons]; omega)
  refine ⟨?_, closes⟩
  by_contra beyond
  simp only [books, opens, if_neg beyond] at opened
  cases opened

theorem Local.copies (step : Local max s t s' t') (inv : Inv s (t ::ₘ ts)) (copies : Copies s) : Copies s' := by
  cases step with
  | opened => exact copies.opened _
  | @copyFailed h =>
    refine ⟨copies.live, fun q there => copies.files q ?_⟩
    by_cases same : q = h
    · simp [same] at there
    · simpa [same] using there
  | @failed h q =>
    obtain ⟨below, first⟩ := inv.hook_first (m := q) (by simp [busy])
    exact copies.runHook below first
  | @hooked q next =>
    obtain ⟨below, first⟩ := inv.hook_first (m := q) (by simp [busy])
    exact (copies.runHook below first).congr (by simp) (fun m => by simp) (by cases next <;> rfl) (by cases next <;> rfl)
  | @dropped q next =>
    refine copies.congr (by simp) (fun m => ?_) (by cases next <;> rfl) (by cases next <;> rfl)
    rw [afterRelease_maps]
    exact ⟨update_keeps _ rfl m, update_keeps _ rfl m⟩
  | casDone | stored | mapped | unmapped | droppedLast =>
    exact copies.congr rfl (fun m => ⟨update_keeps _ rfl m, update_keeps _ rfl m⟩) rfl rfl
  | _ => exact copies.congr rfl (fun _ => ⟨rfl, rfl⟩) rfl rfl

theorem Reached.copies {s : State H} (reached : Reached max s) : Copies s.shared := by
  induction reached with
  | start maps blank => exact ⟨fun _ => rfl, nofun⟩
  | step before step ih =>
    cases step with
    | spawn => exact ih
    | thread step => exact step.copies before.inv ih
    | finished => exact ih.congr rfl (fun _ => ⟨rfl, rfl⟩) rfl rfl

/-- Nobody has the mapping: no caller, not the cache, and no thread that sets it up or takes it down. -/
def State.Free (s : State H) (m : Nat) : Prop :=
  (∀ t ∈ s.threads, t.holders m = 0 ∧ t.moving m = 0 ∧ t.busy m = 0) ∧ s.shared.kept m = 0

theorem State.free_iff {s : State H} : (tally (busy m) s.threads = 0 ∧ tally (holders m) s.threads = 0 ∧
    s.shared.kept m = 0 ∧ tally (moving m) s.threads = 0) ↔ s.Free m := by
  constructor
  · rintro ⟨busy, holders, kept, moving⟩
    exact ⟨fun t member => ⟨eq_zero_of_tally holders member, eq_zero_of_tally moving member,
      eq_zero_of_tally busy member⟩, kept⟩
  · rintro ⟨none, kept⟩
    exact ⟨tally_eq_zero fun t member => (none t member).2.2, tally_eq_zero fun t member => (none t member).1, kept,
      tally_eq_zero fun t member => (none t member).2.1⟩

/-- The count of a mapping is that of the callers that hold it, and one more while the cache keeps it, installs it or
lets it go. A held mapping has its bytes. A hash is cached once, and nothing is put over it. Bytes are unmapped and the
hook is run at most once, not before the count is zero, and both are done when nobody has the mapping any more; the local
copies are counted by the files that are not released. -/
theorem mappings_live_while_held {s : State H} (reached : Reached max s) :
    (∀ m, (s.shared.maps m).refs =
        tally (holders m) s.threads + (s.shared.kept m + tally (moving m) s.threads) ∧
      s.shared.kept m + tally (moving m) s.threads ≤ 1) ∧
    (∀ h m, .holding h m ∈ s.threads → (s.shared.maps m).hash = h ∧ (s.shared.maps m).data = (s.shared.maps m).made ∧
      (s.shared.maps m).unmaps = 0 ∧ (s.shared.maps m).hooks = 0) ∧
    (Lru.keys s.shared.cache).Nodup ∧ (∀ h m, .add h m ∈ s.threads → h ∉ Lru.keys s.shared.cache) ∧
    (∀ m, (s.shared.maps m).unmaps ≤ 1 ∧ (s.shared.maps m).hooks ≤ 1 ∧
      ((s.shared.maps m).unmaps ≠ 0 ∨ (s.shared.maps m).hooks ≠ 0 → (s.shared.maps m).refs = 0)) ∧
    (∀ m < s.shared.next, (s.shared.maps m).hooks = 1 ↔ s.Free m) ∧
    (∀ m, (s.shared.maps m).hooks = 1 → ((s.shared.maps m).unmaps = 1 ↔ (s.shared.maps m).made = true)) ∧
    (∀ h, s.shared.live h = (s.shared.unreleased h).card ∧ (s.shared.files h = true → 0 < s.shared.live h)) := by
  have inv := reached.inv
  refine ⟨fun m => ⟨(inv.balanced m).count, (inv.balanced m).single⟩, fun h m held => ?_, inv.keys,
    fun h m adding => Lru.find_eq_none.mp (inv.fits _ adding).2, fun m => ?_, fun m below => ?_, fun m ran => ?_,
    fun h => ⟨reached.copies.live h, reached.copies.files h⟩⟩
  · have share := le_tally (f := holders m) held
    simp only [holders, if_true] at share
    obtain ⟨count, -, hooks⟩ := (inv.balanced m).held (by simp only [books]; omega)
    have whole := (inv.sound m).used count
    have intact := (inv.sound m).intact
    exact ⟨(inv.fits _ held).2, Bool.eq_iff_iff.mpr (by simpa [whole] using intact), whole, hooks⟩
  · obtain ⟨-, -, alive, dead, once⟩ := inv.balanced m
    obtain ⟨-, unmaps, used, -⟩ := inv.sound m
    simp only [books] at alive dead once
    refine ⟨by omega, by omega, fun gone => ?_⟩
    by_contra count
    have whole := used count
    have opened := alive count
    omega
  · have closed := (inv.balanced m).closed_iff (if_pos below)
    constructor
    · intro ran
      exact State.free_iff.mp (closed.mp ran).2
    · intro free
      have none := State.free_iff.mpr free
      have count := (inv.balanced m).count
      simp only [books, none] at count
      exact closed.mpr ⟨count, none⟩
  · obtain ⟨intact, unmaps, -, gone⟩ := inv.sound m
    have nothing := gone (by omega)
    rw [nothing] at intact
    rcases unmaps with none | ⟨one, made⟩
    · simpa [none] using intact
    · simp [one, made]

theorem removed_while_held : ∃ s : State Bool, Reached 1 s ∧ Thread.holding true 0 ∈ s.threads ∧ s.shared.cache = [] ∧
    (s.shared.maps 0).made = true ∧ (s.shared.maps 0).refs = 1 := by
  have start : Reached 1 (_ : State Bool) := .start (fun _ => ⟨true, false, 0, false, 0, 0⟩) fun _ => ⟨rfl, rfl, rfl, rfl, rfl⟩
  have asked := (start.step .spawn).step (.thread (.acquire true))
  have missed := asked.step (.thread (.getMiss rfl rfl))
  have leading := (missed.step (.thread (.lead rfl))).step (.thread (.getMiss rfl rfl))
  have opened := (leading.step (.thread .opened)).step (.thread .mapped)
  have added := (opened.step (.thread .stored)).step (.thread (.added rfl))
  have held := (added.step (.thread (.evicted (by decide)))).step .finished
  have removing := (held.step .spawn).step (.thread (.removeCall true))
  have off := removing.step (.thread (.removeHit rfl rfl))
  have dropped := off.step (.thread (.dropped (by decide)))
  refine ⟨_, dropped, ?_, rfl, rfl, rfl⟩
  dsimp only [returned]
  exact Multiset.mem_cons_of_mem (Multiset.mem_cons_self _ _)

theorem removed_still_mapped : ∃ s : State Bool, s.shared.cache = [] ∧ (s.shared.maps 0).refs = 1 ∧
    (s.shared.maps 0).data = true ∧ (s.shared.maps 0).hooks = 0 := by
  obtain ⟨s, reached, held, empty, made, count⟩ := removed_while_held
  obtain ⟨-, data, -, hooks⟩ := (mappings_live_while_held reached).2.1 true 0 held
  exact ⟨s, empty, count, data.trans made, hooks⟩

end Xet.XorbMap
