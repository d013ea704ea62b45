import Xet.XorbMap.Holds

/-! Mapped xorb files are in use or given up: what a thread knows of the mappings and of the cache stays true under
the steps of all others, so the books balance in every run. -/
namespace Xet.XorbMap
open Tally RefCount Shared Thread List Lru Multiset Nat Function

variable {H : Type} [DecidableEq H] {max m : Nat} {s s' : Shared H} {t t' u : Thread H} {ts : Multiset (Thread H)}

/-- Nothing gets into the cache but what the leader of a fill puts there, and only the thread that has a mapping in
hand touches its bytes. -/
structure Effect (s : Shared H) (t : Thread H) (s' : Shared H) : Prop where
  next : s.next ≤ s'.next
  hash : ∀ m < s.next, (s'.maps m).hash = (s.maps m).hash
  cache : ∀ h q, Lru.find s'.cache h = some q → Lru.find s.cache h = some q ∨ (t.leads h = 1 ∧ s.Of h q)
  bytes : ∀ m < s.next, ((s'.maps m).data = (s.maps m).data ∧ (s'.maps m).made = (s.maps m).made ∧
    (s'.maps m).unmaps = (s.maps m).unmaps) ∨ t.busy m = 1

theorem Effect.same (next : s'.next = s.next) (maps : ∀ m, (s'.maps m).hash = (s.maps m).hash ∧
      (s'.maps m).data = (s.maps m).data ∧ (s'.maps m).made = (s.maps m).made ∧ (s'.maps m).unmaps = (s.maps m).unmaps)
    (cache : ∀ h q, find s'.cache h = some q → find s.cache h = some q) : Effect s t s' :=
  ⟨next.ge, fun m _ => (maps m).1, fun h q found => .inl (cache h q found), fun m _ => .inl (maps m).2⟩

theorem Local.effect (step : Local max s t s' t') (inv : Inv s (t ::ₘ ts)) : Effect s t s' := by
  have fits := inv.fits t (Multiset.mem_cons_self t ts)
  cases step with
  | acquire | removeCall | openFailed | copyFailed | lead | join | statFailed | emptyFile | casLost | loadLive
  | removeMiss | nothingMapped | release | evicted | getMiss | loadDead =>
    exact .same rfl (fun _ => ⟨rfl, rfl, rfl, rfl⟩) fun _ _ => id
  | has free found | getHit free found =>
    exact .same rfl (fun _ => ⟨rfl, rfl, rfl, rfl⟩) fun h q there => find_touch found h ▸ there
  | casDone | stored | droppedLast =>
    exact .same rfl (fun m => ⟨update_keeps _ rfl m, update_keeps _ rfl m, update_keeps _ rfl m, update_keeps _ rfl m⟩)
      fun _ _ => id
  | dropped =>
    refine .same (by simp) (fun m => ?_) fun h q there => by simpa using there
    rw [afterRelease_maps]
    exact ⟨update_keeps _ rfl m, update_keeps _ rfl m, update_keeps _ rfl m, update_keeps _ rfl m⟩
  | failed =>
    exact .same (by simp) (fun m => ⟨runHook_keeps _ rfl m, runHook_keeps _ rfl m, runHook_keeps _ rfl m,
      runHook_keeps _ rfl m⟩) fun h q there => by simpa using there
  | hooked =>
    refine .same (by simp) (fun m => ?_) fun h q there => by simpa using there
    rw [afterRelease_maps]
    exact ⟨runHook_keeps _ rfl m, runHook_keeps _ rfl m, runHook_keeps _ rfl m, runHook_keeps _ rfl m⟩
  | evictOldest shape =>
    refine .same rfl (fun _ => ⟨rfl, rfl, rfl, rfl⟩) fun h q there => ?_
    rw [find_eq_some inv.keys, shape]
    exact mem_cons_of_mem _ (mem_of_find there)
  | @removeHit h =>
    refine .same rfl (fun _ => ⟨rfl, rfl, rfl, rfl⟩) fun k q there => ?_
    rw [show find (Lru.remove s.cache h) k = _ from find_remove ..] at there
    split at there
    · cases there
    · exact there
  | @mapped h m | @unmapped m =>
    refine ⟨Nat.le_refl _, fun q _ => update_keeps _ rfl q, fun _ _ => .inl, fun q _ => ?_⟩
    by_cases here : q = m
    · exact .inr (if_pos here.symm)
    · simp [here]
  | @opened h =>
    refine ⟨Nat.le_succ _, fun q below => ?_, fun _ _ => .inl, fun q below => .inl ?_⟩ <;>
      rw [opened_maps, if_neg (Nat.ne_of_lt below)]
    exact ⟨rfl, rfl, rfl⟩
  | @added h m free =>
    refine ⟨Nat.le_refl _, fun _ _ => rfl, fun k q there => ?_, fun _ _ => .inl ⟨rfl, rfl, rfl⟩⟩
    rw [show find (put s.cache h m) k = _ from find_put ..] at there
    split at there
    · rename_i same
      subst same
      cases there
      exact .inr ⟨if_pos rfl, fits.1⟩
    · exact .inl there

namespace Effect
variable (effect : Effect s t s')
include effect

theorem of {h : H} (of : s.Of h m) : s'.Of h m :=
  ⟨lt_of_lt_of_le of.1 effect.next, (effect.hash m of.1).trans of.2⟩

theorem missing {h : H} (other : t.leads h ≠ 1) (missing : find s.cache h = none) : find s'.cache h = none := by
  cases found : find s'.cache h with
  | none => rfl
  | some q =>
    rcases effect.cache h q found with old | new
    · cases missing.symm.trans old
    · exact absurd new.1 other

theorem only {h : H} (other : t.leads h ≠ 1) (only : ∀ q, find s.cache h = some q → q = m) (q : Nat)
    (found : find s'.cache h = some q) : q = m := by
  rcases effect.cache h q found with old | new
  · exact only q old
  · exact absurd new.1 other

theorem after {next : After H} (fits : next.Fits s) : next.Fits s' := by
  cases next with
  | evict h m => exact effect.of fits
  | idle | unlock => trivial

end Effect

/-- What a thread knows stays true when another thread, which neither fills its hash nor has its mapping in hand,
takes a step. -/
theorem Thread.Fits.frame (fits : u.Fits s) (effect : Effect s t s') (lone : ∀ h, u.leads h ≠ 0 → t.leads h ≠ 1)
    (apart : ∀ m, u.busy m ≠ 0 → m < s.next ∧ t.busy m ≠ 1) : u.Fits s' := by
  have bytes : ∀ m, u.busy m ≠ 0 → (s'.maps m).data = (s.maps m).data ∧ (s'.maps m).made = (s.maps m).made ∧
      (s'.maps m).unmaps = (s.maps m).unmaps := fun m mine =>
    (effect.bytes m (apart m mine).1).resolve_right (apart m mine).2
  cases u with
  | idle | get | miss | waiting | remove => trivial
  | load h m role =>
    refine ⟨effect.of fits.1, ?_⟩
    rintro rfl
    exact effect.only (lone h (by simp [leads])) (fits.2 rfl)
  | cas h m n role =>
    refine ⟨effect.of fits.1, fits.2.1, ?_⟩
    rintro rfl
    exact effect.only (lone h (by simp [leads])) (fits.2.2 rfl)
  | opening h => exact effect.missing (lone h (by simp [leads])) fits
  | stat h m | failing h m =>
    exact ⟨effect.of fits.1, effect.missing (lone h (by simp [leads])) fits.2.1,
      (bytes m (by simp [busy])).2.1.trans fits.2.2⟩
  | store h m =>
    exact ⟨effect.of fits.1, effect.missing (lone h (by simp [leads])) fits.2.1,
      (bytes m (by simp [busy])).2.2.trans fits.2.2⟩
  | add h m => exact ⟨effect.of fits.1, effect.missing (lone h (by simp [leads])) fits.2⟩
  | evict h m | holding h m => exact effect.of fits
  | finish h result =>
    cases result with
    | none => trivial
    | some m => exact effect.of fits
  | drop m next => exact effect.after fits
  | unmap m next => exact ⟨(bytes m (by simp [busy])).2.2.trans fits.1, effect.after fits.2⟩
  | hook m next => exact ⟨(bytes m (by simp [busy])).1.trans fits.1, effect.after fits.2⟩

theorem afterRelease_fits {next : After H} (fits : next.Fits s') : (afterRelease s next).2.Fits s' := by
  cases next with
  | evict h m => exact fits
  | idle | unlock => trivial

theorem Inv.whole (inv : Inv s ts) (never : (s.maps m).made = false) : (s.maps m).unmaps = 0 := by
  rcases (inv.sound m).once with none | ⟨-, made⟩
  · exact none
  · cases never.symm.trans made

theorem Local.fits (step : Local max s t s' t') (inv : Inv s (t ::ₘ ts)) : t'.Fits s' := by
  have fits := inv.fits t (Multiset.mem_cons_self t ts)
  have effect := step.effect inv
  cases step with
  | acquire | removeCall | has | openFailed | copyFailed | lead | join | removeMiss | failed => trivial
  | @getHit h m leader free found =>
    refine ⟨effect.of (inv.cached h m found), fun _ q there => ?_⟩
    rw [show find (put s.cache h m) h = _ from find_touch found h, found] at there
    exact (Option.some.inj there).symm
  | @getMiss h leader free missing =>
    cases leader with
    | false => trivial
    | true => exact missing
  | @loadDead h m role dead =>
    cases role with
    | caller | waiter => trivial
    | leader =>
      -- a mapping that has died is not in the cache any more, and no other of its hash is
      cases found : find s.cache h with
      | none => exact found
      | some q =>
        cases fits.2 rfl q found
        have kept : s.kept m = 1 := kept_found found fits.1.2
        exact absurd dead ((inv.balanced m).held (by simp only [books]; omega)).1
  | loadLive live => exact ⟨fits.1, live, fits.2⟩
  | @casDone h m n role same => cases role <;> exact effect.of fits.1
  | casLost => exact ⟨fits.1, fits.2.2⟩
  | opened =>
    refine ⟨⟨lt_succ_self _, ?_⟩, fits, ?_⟩ <;> rw [opened_maps, if_pos rfl]
  | statFailed => exact fits
  | @emptyFile h m => exact ⟨fits.1, fits.2.1, inv.whole fits.2.2⟩
  | @mapped h m =>
    refine ⟨effect.of fits.1, fits.2.1, ?_⟩
    rw [update_keeps Mapping.unmaps rfl]
    exact inv.whole fits.2.2
  | stored => exact ⟨effect.of fits.1, fits.2.1⟩
  | added => exact effect.of fits.1
  | evictOldest => exact effect.of fits
  | evicted => exact effect.of fits
  | release => trivial
  | removeHit => trivial
  | dropped => exact afterRelease_fits (effect.after fits)
  | hooked => exact afterRelease_fits (effect.after fits.2)
  | @droppedLast m next last =>
    refine ⟨?_, effect.after fits⟩
    rw [update_keeps Mapping.unmaps rfl]
    exact (inv.sound m).used (by omega)
  | unmapped => exact ⟨by simp, effect.after fits.2⟩
  | nothingMapped nil => exact ⟨nil, fits.2⟩

theorem Inv.in_hand (inv : Inv s (t ::ₘ ts)) (busy : t.busy m ≠ 0) : (s.maps m).refs = 0 ∧ (s.maps m).hooks = 0 := by
  have all := (inv.balanced m).in_hand (by simp only [books, tally_cons]; omega)
  exact ⟨all.2.1, all.2.2.2⟩

theorem Inv.dropping {next : After H} (inv : Inv s (.drop m next ::ₘ ts)) : (s.maps m).refs ≠ 0 := by
  refine ((inv.balanced m).held ?_).1
  simp only [books, tally_cons]
  cases next <;> simp only [holders, moving, if_true] <;> omega

omit [DecidableEq H] in
theorem sound_update {q : Nat} {f : Mapping H → Mapping H} (sound : ∀ m, (s.maps m).Sound) (new : (f (s.maps q)).Sound)
    (m : Nat) : ((s.update q f).maps m).Sound := by
  rw [update_maps]
  split
  · exact new
  · exact sound m

theorem sound_runHook {q : Nat} (sound : ∀ m, (s.maps m).Sound) (gone : (s.maps q).data = false) (m : Nat) :
    ((s.runHook q).maps m).Sound := by
  rw [runHook, removeXorbFile_maps]
  exact sound_update sound { sound q with gone := fun _ => gone } m

theorem Local.sound (step : Local max s t s' t') (inv : Inv s (t ::ₘ ts)) (m : Nat) : (s'.maps m).Sound := by
  have fits := inv.fits t (Multiset.mem_cons_self t ts)
  have sound := inv.sound
  cases step with
  | acquire | removeCall | openFailed | copyFailed | lead | join | statFailed | emptyFile | casLost | loadLive
  | removeMiss | nothingMapped | release | evicted | getMiss | loadDead | has | getHit | added | evictOldest
  | removeHit => exact sound m
  | @casDone h q n role same =>
    exact sound_update sound { sound q with used := fun _ => (sound q).used (same.symm ▸ fits.2.1) } m
  | stored => exact sound_update sound { sound _ with used := fun _ => fits.2.2 } m
  | @dropped q next more =>
    rw [afterRelease_maps]
    exact sound_update sound { sound q with used := fun _ => (sound q).used inv.dropping } m
  | @droppedLast q next last =>
    exact sound_update sound { sound q with used := fun _ => (sound q).used inv.dropping } m
  | opened =>
    rw [opened_maps]
    split
    · exact ⟨by simp, .inl rfl, fun _ => rfl, fun _ => rfl⟩
    · exact sound m
  | @mapped h q =>
    have whole := inv.whole fits.2.2
    have hooks := (inv.in_hand (m := q) (by simp [busy])).2
    exact sound_update sound ⟨by simp [whole], .inl whole, fun _ => whole, fun ran => absurd hooks ran⟩ m
  | @failed h q =>
    have nothing : (s.maps q).data = false := by
      rw [Bool.eq_false_iff, Ne, (sound q).intact, fits.2.2]
      simp
    exact sound_runHook sound nothing m
  | @unmapped q next here =>
    obtain ⟨made, whole⟩ := (sound q).intact.mp here
    have count := (inv.in_hand (m := q) (by simp [busy])).1
    exact sound_update sound ⟨by simp, .inr ⟨by simp [whole], made⟩, fun held => absurd count held, fun _ => rfl⟩ m
  | hooked =>
    rw [afterRelease_maps]
    exact sound_runHook sound fits.1 m

theorem Local.fills (step : Local max s t s' t') :
    (s'.fills = s.fills ∧ ∀ h, t'.leads h = t.leads h) ∨
      ∃ h, s.fills h = false ∧ s'.fills = update s.fills h true ∧ t = .miss h ∧ t' = .get h true := by
  cases step with
  | lead free => exact .inr ⟨_, free, rfl, rfl, rfl⟩
  | @getHit h m leader => exact .inl ⟨rfl, fun _ => by cases leader <;> rfl⟩
  | @getMiss h leader => exact .inl ⟨rfl, fun _ => by cases leader <;> rfl⟩
  | @loadDead h m role => exact .inl ⟨rfl, fun _ => by cases role <;> rfl⟩
  | @loadLive h m role => exact .inl ⟨rfl, fun _ => by cases role <;> rfl⟩
  | @casDone h m n role => exact .inl ⟨rfl, fun _ => by cases role <;> rfl⟩
  | @casLost h m n role => exact .inl ⟨rfl, fun _ => by cases role <;> rfl⟩
  | dropped | hooked => exact .inl ⟨by simp, fun h => leads_afterRelease s h _⟩
  | failed => exact .inl ⟨by simp, fun _ => rfl⟩
  | _ => exact .inl ⟨rfl, fun _ => rfl⟩

theorem Local.keys (step : Local max s t s' t') (distinct : (Lru.keys s.cache).Nodup) : (Lru.keys s'.cache).Nodup := by
  cases step with
  | has | getHit | added => exact nodup_put distinct _ _
  | removeHit => exact nodup_remove distinct _
  | evictOldest shape =>
    rw [shape] at distinct
    exact (nodup_cons.mp distinct).2
  | dropped | hooked | failed => simpa using distinct
  | _ => exact distinct

theorem Inv.lone (inv : Inv s (t ::ₘ ts)) (other : u ∈ ts) {h : H} (leads : u.leads h ≠ 0) : t.leads h ≠ 1 := by
  have all := inv.leads h
  have share := le_tally (f := Thread.leads h) other
  rw [tally_cons] at all
  split at all <;> omega

theorem Inv.apart (inv : Inv s (t ::ₘ ts)) (other : u ∈ ts) (busy : u.busy m ≠ 0) : m < s.next ∧ t.busy m ≠ 1 := by
  have share := le_tally (f := Thread.busy m) other
  obtain ⟨one, -, opened, -⟩ := (inv.balanced m).in_hand (by simp only [books, tally_cons]; omega)
  simp only [books, tally_cons, opens] at one opened
  constructor
  · by_contra beyond
    rw [if_neg beyond] at opened
    cases opened
  · omega

theorem Local.inv (step : Local max s t s' t') (inv : Inv s (t ::ₘ ts)) : Inv s' (t' ::ₘ ts) := by
  have effect := step.effect inv
  constructor
  case balanced =>
    intro m
    have before := inv.balanced m
    rw [books_cons] at before ⊢
    exact (step.move inv m).balanced before
  case leads =>
    intro h
    have before := inv.leads h
    rw [tally_cons] at before ⊢
    rcases step.fills with ⟨fills, same⟩ | ⟨q, free, fills, rfl, rfl⟩
    · rw [same, fills]
      exact before
    · rw [fills]
      by_cases here : q = h
      · subst here
        rw [free] at before
        simp_all [leads]
      · simpa [leads, here, update_of_ne (Ne.symm here)] using before
  case keys => exact step.keys inv.keys
  case cached =>
    intro h m found
    rcases effect.cache h m found with old | new
    · exact effect.of (inv.cached h m old)
    · exact effect.of new.2
  case sound => exact step.sound inv
  case fits =>
    intro u member
    rcases mem_cons.mp member with rfl | other
    · exact step.fits inv
    · exact (inv.fits u (Multiset.mem_cons_of_mem other)).frame effect (fun h => inv.lone other)
        fun m => inv.apart other

theorem wake_weights (h : H) (result : Option Nat) (u : Thread H) :
    (∀ m, (wake h result u).holders m = u.holders m) ∧ (∀ m, (wake h result u).moving m = u.moving m) ∧
    (∀ m, (wake h result u).busy m = u.busy m) ∧ ∀ q, (wake h result u).leads q = u.leads q := by
  cases u with
  | waiting q =>
    rw [wake]
    split
    · cases result <;> exact ⟨fun _ => rfl, fun _ => rfl, fun _ => rfl, fun _ => rfl⟩
    · exact ⟨fun _ => rfl, fun _ => rfl, fun _ => rfl, fun _ => rfl⟩
  | _ => exact ⟨fun _ => rfl, fun _ => rfl, fun _ => rfl, fun _ => rfl⟩

theorem returned_weights (h : H) (result : Option Nat) :
    (∀ m, (returned h result).holders m = (Thread.finish h result).holders m) ∧ (∀ m, (returned h result).moving m = 0) ∧
    (∀ m, (returned h result).busy m = 0) ∧ ∀ q, (returned h result).leads q = 0 := by
  cases result <;> exact ⟨fun _ => rfl, fun _ => rfl, fun _ => rfl, fun _ => rfl⟩

/-- The fill of a hash ends: its leader and those who wait take their result, and the next miss starts another. -/
theorem Inv.finished {h : H} {result : Option Nat} (inv : Inv s (.finish h result ::ₘ ts)) :
    Inv { s with fills := update s.fills h false } (returned h result ::ₘ ts.map (wake h result)) := by
  have fits := inv.fits _ (Multiset.mem_cons_self _ _)
  obtain ⟨holders, moving, busy, leads⟩ := returned_weights h result
  have woken := wake_weights h result
  constructor
  case balanced =>
    intro m
    have same : books { s with fills := update s.fills h false } (returned h result ::ₘ ts.map (wake h result)) m =
        books s (.finish h result ::ₘ ts) m := by
      simp only [books, tally_cons, tally_map fun u _ => (woken u).1 m, tally_map fun u _ => (woken u).2.1 m,
        tally_map fun u _ => (woken u).2.2.1 m, holders, moving, busy]
      rfl
    rw [same]
    exact inv.balanced m
  case leads =>
    intro q
    have before := inv.leads q
    rw [tally_cons] at before ⊢
    rw [leads, tally_map fun u _ => (woken u).2.2.2 q]
    by_cases here : q = h
    · subst here
      have others : tally (Thread.leads q) ts = 0 := by
        simp only [Thread.leads, if_true] at before
        split at before <;> omega
      simp [others]
    · simpa [Thread.leads, Ne.symm here, update_of_ne here] using before
  case keys => exact inv.keys
  case cached => exact inv.cached
  case sound => exact inv.sound
  case fits =>
    have quiet : Effect s .idle { s with fills := update s.fills h false } :=
      .same rfl (fun _ => ⟨rfl, rfl, rfl, rfl⟩) fun _ _ => id
    intro u member
    rcases mem_cons.mp member with rfl | other
    · cases result with
      | none => trivial
      | some m => exact fits
    · obtain ⟨v, waiting, rfl⟩ := mem_map.mp other
      have kept := (inv.fits v (Multiset.mem_cons_of_mem waiting)).frame quiet (by simp [Thread.leads])
        fun m mine => ⟨(inv.apart waiting mine).1, by simp [Thread.busy]⟩
      cases v with
      | waiting q =>
        rw [wake]
        split
        · cases result with
          | none => trivial
          | some m => exact ⟨fits, by simp⟩
        · trivial
      | _ => exact kept

theorem Inv.spawn (inv : Inv s ts) : Inv s (.idle ::ₘ ts) where
  balanced m := by
    have same : books s (.idle ::ₘ ts) m = books s ts m := by simp [books, holders, moving, busy]
    rw [same]
    exact inv.balanced m
  leads h := by
    rw [tally_cons]
    exact (zero_add _).trans (inv.leads h)
  keys := inv.keys
  cached := inv.cached
  sound := inv.sound
  fits u member := by
    rcases mem_cons.mp member with rfl | old
    · trivial
    · exact inv.fits u old

theorem Step.inv {s s' : State H} (step : Step max s s') (inv : Inv s.shared s.threads) : Inv s'.shared s'.threads := by
  cases step with
  | spawn => exact inv.spawn
  | thread step => exact step.inv inv
  | finished => exact inv.finished

theorem Reached.inv {s : State H} (reached : Reached max s) : Inv s.shared s.threads := by
  induction reached with
  | start maps blank =>
    constructor
    case balanced =>
      intro m
      obtain ⟨refs, hooks, -⟩ := blank m
      constructor <;> simp [books, kept, opens, find, refs, hooks]
    case sound =>
      intro m
      obtain ⟨refs, hooks, unmaps, data, made⟩ := blank m
      exact ⟨by simp [data, made], .inl unmaps, fun _ => unmaps, fun _ => data⟩
    case leads => exact fun _ => rfl
    case keys => exact nodup_nil
    case cached => simp [find]
    case fits => simp
  | step _ step ih => exact step.inv ih

end Xet.XorbMap
