import SlickPerfmon.Ring.RingTable

/-!
# The invariant of the claim protocol

What a thread may still write is told by its claims, the rings its binding and its exit hook name: a claim through
a running session keeps the claim word at the session's owner word, and no other live thread claims the ring.
-/

namespace SlickPerfmon

open Library

variable {Thread Session Module Process : Type} {d : Deployment Thread Session Module Process}
  {st st' : TableState Thread Session Module Process} {count mask : Nat} {self : UInt32}

/-! ## Claim words of sessions -/

namespace Deployment

theorem ringState_owner (s : Session) : ringState (d.owner s) = kRingActive :=
  ringState_ringOwner _ _ (by decide)

theorem ringState_retired (s : Session) : ringState (retiredWord (d.owner s)) = kRingRetired := by
  rw [owner, retiredWord_ringOwner]
  exact ringState_ringOwner _ _ (by decide)

theorem ringPid_owner (s : Session) : ringPid (d.owner s) = d.pidOf (d.home s) :=
  ringPid_ringOwner _ _ (by decide)

/-- The tag alone tells the session of a claim word, in either state. -/
theorem tag_inj_toNat {s s' : Session} (h : (d.tag s).toNat % 2 ^ 24 = (d.tag s').toNat % 2 ^ 24) : s = s' := by
  refine d.tag_inj s s' (UInt32.toNat_inj.mp ?_)
  rw [UInt32.toNat_and, UInt32.toNat_and]
  show _ &&& 2 ^ 24 - 1 = _ &&& 2 ^ 24 - 1
  rw [Nat.and_two_pow_sub_one_eq_mod, Nat.and_two_pow_sub_one_eq_mod, h]

theorem owner_inj {s s' : Session} (h : d.owner s = d.owner s') : s = s' := by
  have hn := congrArg UInt64.toNat h
  rw [owner, owner, ringOwner_toNat _ _ (by decide), ringOwner_toNat _ _ (by decide)] at hn
  exact d.tag_inj_toNat (by omega)

theorem owner_ne_retired (s s' : Session) : d.owner s ≠ retiredWord (d.owner s') := fun h => by
  have := congrArg ringState h
  rw [ringState_owner, ringState_retired] at this
  exact absurd this (by decide)

theorem owner_ne_free (s : Session) : d.owner s ≠ kRingFree := fun h => by
  have := congrArg ringState h
  rw [ringState_owner] at this
  exact absurd this (by decide)

end Deployment

/-! ## The invariant -/

/-- The cached binding of a thread names ring `r` of session `s`. -/
def ThreadState.Bound (d : Deployment Thread Session Module Process) (x : ThreadState Session) (s : Session)
    (r : Nat) : Prop :=
  x.sessionId = d.id s ∧ x.ring = some r

/-- A thread may still write ring `r` or its claim word, through session `s`. -/
def ThreadState.Claims (d : Deployment Thread Session Module Process) (x : ThreadState Session) (s : Session)
    (r : Nat) : Prop :=
  (x.hookSession = d.id s ∧ x.hookRing = r) ∨ x.Bound d s r

/-- What a thread knows of itself at each access. -/
def ThreadState.PcHolds (d : Deployment Thread Session Module Process) (x : ThreadState Session) : Prop :=
  match x.pc with
  | .load s _ _ | .claim s _ _ => x.sessionId = d.id s ∧ x.ring = none
  | .attach s i _ => x.sessionId = d.id s ∧ x.hookSession = d.id s ∧ x.hookRing = i
  | .publish s => x.sessionId = d.id s
  | .retire s => x.hookSession = d.id s
  | .idle | .exited => True

namespace TableState

/-- A thread of a living process whose exit hook has not run. -/
def LiveThread (d : Deployment Thread Session Module Process) (st : TableState Thread Session Module Process)
    (t : Thread) : Prop :=
  st.Alive d (d.threadHome t) ∧ (st.threads t).pc ≠ .exited

/-- The claim word of ring `r` carries session `s`. -/
def HeldBy (d : Deployment Thread Session Module Process) (st : TableState Thread Session Module Process)
    (r : Nat) (s : Session) : Prop :=
  st.owner r = d.owner s ∨ st.owner r = retiredWord (d.owner s)

/-- What the collector knows at each access. -/
def CollectorHolds (d : Deployment Thread Session Module Process)
    (st : TableState Thread Session Module Process) : Prop :=
  match st.collector with
  | .read r h _ => st.cursor r ≤ h ∧ h ≤ st.head r
  | .drained i seen => st.owner i = seen ∧ ringState seen = kRingRetired
  | .free i seen => st.owner i = seen ∧ ringState seen = kRingRetired ∧ st.cursor i = st.head i
  | .alive _ w => ∃ s, st.phase s ≠ .unborn ∧ w = d.owner s
  | .retire _ w => ∃ s, st.phase s ≠ .unborn ∧ w = d.owner s ∧ ¬ st.Alive d (d.home s)
  | .anchor _ | .idle | .load _ | .scan _ => True

end TableState

structure TableInv (d : Deployment Thread Session Module Process)
    (st : TableState Thread Session Module Process) : Prop where
  born : ∀ p, st.Alive d p → st.born p = true
  started : ∀ s, st.phase s ≠ .unborn → st.born (d.home s) = true
  live : ∀ m s, st.live m = some s → st.phase s ≠ .unborn ∧ d.home s = d.processOf m
  current : ∀ m s, st.current m = some s → st.phase s ≠ .unborn ∧ d.home s = d.processOf m
  known : ∀ t s, (st.threads t).sessionId = d.id s ∨ (st.threads t).hookSession = d.id s →
    st.phase s ≠ .unborn ∧ d.home s = d.threadHome t
  pc : ∀ t, (st.threads t).PcHolds d
  words : ∀ i, st.owner i = kRingFree ∨ ∃ s, st.phase s ≠ .unborn ∧ st.HeldBy d i s
  holds : ∀ t s r, st.LiveThread d t → st.Serves s r → (st.threads t).Claims d s r → st.owner r = d.owner s
  sole : ∀ t t' s r, st.LiveThread d t → st.LiveThread d t' → st.Serves s r → (st.threads t).Claims d s r →
    (st.threads t').Claims d s r → t = t'
  next : ∀ t s r, st.LiveThread d t → st.Serves s r → (st.threads t).Bound d s r →
    (st.threads t).next = st.head r
  cursor : ∀ i, st.cursor i ≤ st.head i
  collector : st.CollectorHolds d

theorem ThreadState.Claims.known {x : ThreadState Session} {s : Session} {r : Nat} (h : x.Claims d s r) :
    x.sessionId = d.id s ∨ x.hookSession = d.id s := by
  obtain ⟨h, -⟩ | ⟨h, -⟩ := h
  · exact .inr h
  · exact .inl h

theorem TableState.Serves.started {s : Session} {r : Nat} (h : st.Serves s r) : st.phase s ≠ .unborn := fun hu => by
  rw [TableState.Serves, hu] at h
  cases h

theorem TableState.CollectorHolds.mono (h : st.CollectorHolds d) (hcollector : st'.collector = st.collector)
    (hphase : ∀ s, st.phase s ≠ .unborn → st'.phase s ≠ .unborn)
    (hback : ∀ s, st.phase s ≠ .unborn → st'.Alive d (d.home s) → st.Alive d (d.home s))
    (hretired : ∀ i, ringState (st.owner i) = kRingRetired → st'.owner i = st.owner i ∧ st'.head i = st.head i)
    (hcursor : st'.cursor = st.cursor) (hhead : ∀ i, st.head i ≤ st'.head i) : st'.CollectorHolds d := by
  unfold TableState.CollectorHolds at h ⊢
  rw [hcollector, hcursor]
  cases hc : st.collector with
  | read r hd maxN =>
      simp only [hc] at h
      exact ⟨h.1, h.2.trans (hhead r)⟩
  | drained i seen =>
      simp only [hc] at h
      obtain ⟨rfl, hseen⟩ := h
      exact ⟨(hretired i hseen).1, hseen⟩
  | free i seen =>
      simp only [hc] at h
      obtain ⟨rfl, hseen, hdrained⟩ := h
      obtain ⟨hw, hd⟩ := hretired i hseen
      exact ⟨hw, hseen, hdrained.trans hd.symm⟩
  | alive i w =>
      simp only [hc] at h
      obtain ⟨s, hs, hw⟩ := h
      exact ⟨s, hphase s hs, hw⟩
  | retire i w =>
      simp only [hc] at h
      obtain ⟨s, hs, hw, hdead⟩ := h
      exact ⟨s, hphase s hs, hw, fun ha => hdead (hback s hs ha)⟩
  | _ => trivial

theorem TableInv.init (h : TableInit st) : TableInv d st where
  born p hp := by rw [TableState.Alive, h.occupant] at hp; cases hp
  started s hs := absurd (h.phase s) hs
  live m s hm := by rw [h.live] at hm; cases hm
  current m s hm := by rw [h.current] at hm; cases hm
  known t s hs := by
    rw [h.threads t] at hs
    exact absurd (by simpa using hs) (d.id_ne_zero s).symm
  pc t := by rw [h.threads t]; trivial
  words i := .inl (h.owner i)
  holds t s r _ hr := absurd (h.phase s) hr.started
  sole t t' s r _ _ hr := absurd (h.phase s) hr.started
  next t s r _ hr := absurd (h.phase s) hr.started
  cursor := h.cursor
  collector := by rw [TableState.CollectorHolds, h.collector]; trivial

namespace TableInv

variable (h : TableInv d st)
include h

/-! ## Processes and phases -/

/-- Processes that come and go, where none comes back. -/
theorem setProcesses {born : Process → Bool} {occupant : UInt32 → Option Process}
    (hborn : ∀ p, occupant (d.pidOf p) = some p → born p = true) (hmono : ∀ p, st.born p = true → born p = true)
    (hback : ∀ p, st.born p = true → occupant (d.pidOf p) = some p → st.Alive d p) :
    TableInv d { st with born := born, occupant := occupant } := by
  have hlive : ∀ t s r, TableState.LiveThread d { st with born := born, occupant := occupant } t →
      (st.threads t).Claims d s r → st.LiveThread d t := by
    intro t s r ht hc
    obtain ⟨hs, hhome⟩ := h.known t s hc.known
    have hb := h.started s hs
    rw [hhome] at hb
    exact ⟨hback _ hb ht.1, ht.2⟩
  exact
    { born := hborn
      started := fun s hs => hmono _ (h.started s hs)
      live := h.live
      current := h.current
      known := h.known
      pc := h.pc
      words := h.words
      holds := fun t s r ht hr hc => h.holds t s r (hlive t s r ht hc) hr hc
      sole := fun t t' s r ht ht' hr hc hc' => h.sole t t' s r (hlive t s r ht hc) (hlive t' s r ht' hc') hr hc hc'
      next := fun t s r ht hr hb => h.next t s r (hlive t s r ht (.inr hb)) hr hb
      cursor := h.cursor
      collector := h.collector.mono rfl (fun _ hs => hs) (fun s hs ha => hback _ (h.started s hs) ha)
        (fun _ _ => ⟨rfl, rfl⟩) rfl fun _ => Nat.le_refl _ }

/-- A session goes from one phase to the next, with the hot pointers of some module. -/
theorem setPhase [DecidableEq Session] {s : Session} {p : Phase} {live current : Module → Option Session}
    (hp : p ≠ .unborn) (hs : st.phase s ≠ .unborn ∨ st.Alive d (d.home s))
    (hserves : ∀ r, p.serves r = true → st.phase s = .unborn ∨ st.Serves s r)
    (hlive : ∀ m s', live m = some s' → st.live m = some s' ∨ s' = s ∧ d.home s = d.processOf m)
    (hcurrent : ∀ m s', current m = some s' → st.current m = some s' ∨ s' = s ∧ d.home s = d.processOf m) :
    TableInv d { st with phase := Function.update st.phase s p, live := live, current := current } := by
  set st' : TableState Thread Session Module Process :=
    { st with phase := Function.update st.phase s p, live := live, current := current } with hst'
  have hself : st'.phase s = p := Function.update_self ..
  have hother : ∀ s', s' ≠ s → st'.phase s' = st.phase s' := fun s' hs' => Function.update_of_ne hs' _ _
  have hstart : ∀ s', st.phase s' ≠ .unborn → st'.phase s' ≠ .unborn := by
    intro s' h'
    by_cases he : s' = s
    · rw [he, hself]; exact hp
    · rw [hother s' he]; exact h'
  -- a session that starts only now is known to no thread
  have hserved : ∀ t s' r, st'.Serves s' r → (st.threads t).Claims d s' r → st.Serves s' r := by
    intro t s' r hr hc
    by_cases he : s' = s
    · rw [TableState.Serves, he, hself] at hr
      rw [he]
      exact (hserves r hr).resolve_left fun hu => (h.known t s' hc.known).1 (he ▸ hu)
    · rw [TableState.Serves, hother s' he] at hr
      exact hr
  exact
    { born := h.born
      started := by
        intro s' h'
        by_cases he : s' = s
        · rw [he]
          exact hs.elim (h.started s) (h.born _)
        · rw [hother s' he] at h'
          exact h.started s' h'
      live := by
        intro m s' hm
        obtain hm | ⟨rfl, hm⟩ := hlive m s' hm
        · exact ⟨hstart s' (h.live m s' hm).1, (h.live m s' hm).2⟩
        · exact ⟨by rw [hself]; exact hp, hm⟩
      current := by
        intro m s' hm
        obtain hm | ⟨rfl, hm⟩ := hcurrent m s' hm
        · exact ⟨hstart s' (h.current m s' hm).1, (h.current m s' hm).2⟩
        · exact ⟨by rw [hself]; exact hp, hm⟩
      known := fun t s' hk => ⟨hstart s' (h.known t s' hk).1, (h.known t s' hk).2⟩
      pc := h.pc
      words := by
        intro i
        obtain hw | ⟨s', h', hw⟩ := h.words i
        · exact .inl hw
        · exact .inr ⟨s', hstart s' h', hw⟩
      holds := fun t s' r ht hr hc => h.holds t s' r ht (hserved t s' r hr hc) hc
      sole := fun t t' s' r ht ht' hr hc hc' => h.sole t t' s' r ht ht' (hserved t s' r hr hc) hc hc'
      next := fun t s' r ht hr hb => h.next t s' r ht (hserved t s' r hr (.inr hb)) hb
      cursor := h.cursor
      collector := h.collector.mono rfl hstart (fun _ _ ha => ha) (fun _ _ => ⟨rfl, rfl⟩) rfl
        fun _ => Nat.le_refl _ }

/-- A module attaches: its pointers may name any session of its process. -/
theorem setHot {live current : Module → Option Session}
    (hlive : ∀ m s, live m = some s → st.phase s ≠ .unborn ∧ d.home s = d.processOf m)
    (hcurrent : ∀ m s, current m = some s → st.phase s ≠ .unborn ∧ d.home s = d.processOf m) :
    TableInv d { st with live := live, current := current } :=
  { h with live := hlive, current := hcurrent }

/-! ## One thread -/

/-- A thread changes its own variables and claims nothing new; one whose exit hook has run goes on without claims. -/
theorem setThread [DecidableEq Thread] {t : Thread} {x : ThreadState Session}
    (hexit : (st.threads t).pc = .exited → x.pc ≠ .exited → ∀ s r, ¬ x.Claims d s r)
    (hknown : ∀ s, x.sessionId = d.id s ∨ x.hookSession = d.id s → st.phase s ≠ .unborn ∧ d.home s = d.threadHome t)
    (hpc : x.PcHolds d)
    (hclaims : x.pc ≠ .exited → ∀ s r, x.Claims d s r → (st.threads t).Claims d s r)
    (hnext : x.pc ≠ .exited → ∀ s r, st.LiveThread d t → st.Serves s r → x.Bound d s r → x.next = st.head r) :
    TableInv d (st.setThread t x) := by
  have hself : (st.setThread t x).threads t = x := Function.update_self ..
  have hother : ∀ t', t' ≠ t → (st.setThread t x).threads t' = st.threads t' :=
    fun t' ht' => Function.update_of_ne ht' _ _
  have hold : ∀ t' s r, (st.setThread t x).LiveThread d t' → ((st.setThread t x).threads t').Claims d s r →
      st.LiveThread d t' ∧ (st.threads t').Claims d s r := by
    intro t' s r ht' hc
    by_cases he : t' = t
    · subst he
      have hx := ht'.2
      rw [hself] at hx hc
      exact ⟨⟨ht'.1, fun hgone => hexit hgone hx s r hc⟩, hclaims hx s r hc⟩
    · rw [hother t' he] at hc
      exact ⟨⟨ht'.1, by rw [← hother t' he]; exact ht'.2⟩, hc⟩
  exact
    { born := h.born
      started := h.started
      live := h.live
      current := h.current
      known := by
        intro t' s hk
        by_cases he : t' = t
        · subst he
          rw [hself] at hk
          exact hknown s hk
        · rw [hother t' he] at hk
          exact h.known t' s hk
      pc := by
        intro t'
        by_cases he : t' = t
        · rw [he, hself]; exact hpc
        · rw [hother t' he]; exact h.pc t'
      words := h.words
      holds := by
        intro t' s r ht' hr hc
        obtain ⟨hlive, hclaim⟩ := hold t' s r ht' hc
        exact h.holds t' s r hlive hr hclaim
      sole := by
        intro t₁ t₂ s r h₁ h₂ hr hc₁ hc₂
        obtain ⟨hlive₁, hclaim₁⟩ := hold t₁ s r h₁ hc₁
        obtain ⟨hlive₂, hclaim₂⟩ := hold t₂ s r h₂ hc₂
        exact h.sole t₁ t₂ s r hlive₁ hlive₂ hr hclaim₁ hclaim₂
      next := by
        intro t' s r ht' hr hb
        have hlive := (hold t' s r ht' (.inr hb)).1
        by_cases he : t' = t
        · subst he
          have hx := ht'.2
          rw [hself] at hx hb ⊢
          exact hnext hx s r hlive hr hb
        · rw [hother t' he] at hb ⊢
          exact h.next t' s r hlive hr hb
      cursor := h.cursor
      collector := h.collector }

/-- A claim: the word goes from free to the session's owner word, and the thread's hook names the ring. -/
theorem claim [DecidableEq Thread] {t : Thread} {s : Session} {i : Nat} {stamps : Bool}
    (hpc : (st.threads t).pc = .claim s i stamps) (hfree : st.owner i = kRingFree) :
    TableInv d ((st.setOwner i (d.owner s)).setThread t
      { st.threads t with hookSession := d.id s, hookRing := i, pc := .attach s i stamps }) := by
  set x : ThreadState Session :=
    { st.threads t with hookSession := d.id s, hookRing := i, pc := .attach s i stamps } with hx
  set st' := (st.setOwner i (d.owner s)).setThread t x with hst'
  have hself : st'.threads t = x := Function.update_self ..
  have hother : ∀ t', t' ≠ t → st'.threads t' = st.threads t' := fun t' ht' => Function.update_of_ne ht' _ _
  have howner : st'.owner i = d.owner s := Function.update_self ..
  have hword : ∀ j, j ≠ i → st'.owner j = st.owner j := fun j hj => Function.update_of_ne hj _ _
  have hat : (st.threads t).sessionId = d.id s ∧ (st.threads t).ring = none := by
    have := h.pc t
    rw [ThreadState.PcHolds, hpc] at this
    exact this
  have hown := h.known t s (.inl hat.1)
  have hlive : ∀ t', st'.LiveThread d t' → st.LiveThread d t' := by
    intro t' ht'
    by_cases he : t' = t
    · subst he; exact ⟨ht'.1, by rw [hpc]; exact nofun⟩
    · exact ⟨ht'.1, by rw [← hother t' he]; exact ht'.2⟩
  -- the claimant claims this ring alone, and nobody has claimed a free ring
  have hmine : ∀ s' r, x.Claims d s' r → s' = s ∧ r = i := by
    rintro s' r (⟨hs', hr⟩ | ⟨-, hr⟩)
    · exact ⟨(d.id_inj s s' hs').symm, hr.symm⟩
    · rw [hx] at hr
      simp only at hr
      rw [hat.2] at hr
      cases hr
  have hnobody : ∀ t' s' r, st.LiveThread d t' → st.Serves s' r → (st.threads t').Claims d s' r → r ≠ i := by
    rintro t' s' r ht' hr hc rfl
    exact d.owner_ne_free s' ((h.holds t' s' r ht' hr hc).symm.trans hfree)
  exact
    { born := h.born
      started := h.started
      live := h.live
      current := h.current
      known := by
        intro t' s' hk
        by_cases he : t' = t
        · subst he
          rw [hself] at hk
          obtain hk | hk := hk
          · exact h.known t' s' (.inl hk)
          · rw [← d.id_inj s s' hk]
            exact hown
        · rw [hother t' he] at hk
          exact h.known t' s' hk
      pc := by
        intro t'
        by_cases he : t' = t
        · rw [he, hself]; exact ⟨hat.1, rfl, rfl⟩
        · rw [hother t' he]; exact h.pc t'
      words := by
        intro j
        by_cases hj : j = i
        · exact .inr ⟨s, hown.1, .inl (by rw [hj, howner])⟩
        · obtain hw | ⟨s', hs', hw⟩ := h.words j
          · exact .inl ((hword j hj).trans hw)
          · exact .inr ⟨s', hs', hw.imp (hword j hj).trans (hword j hj).trans⟩
      holds := by
        intro t' s' r ht' hr hc
        by_cases he : t' = t
        · subst he
          rw [hself] at hc
          obtain ⟨rfl, rfl⟩ := hmine s' r hc
          exact howner
        · rw [hother t' he] at hc
          rw [hword r (hnobody t' s' r (hlive t' ht') hr hc)]
          exact h.holds t' s' r (hlive t' ht') hr hc
      sole := by
        intro t₁ t₂ s' r h₁ h₂ hr hc₁ hc₂
        by_cases he₁ : t₁ = t <;> by_cases he₂ : t₂ = t
        · rw [he₁, he₂]
        · rw [he₁, hself] at hc₁
          rw [hother t₂ he₂] at hc₂
          exact absurd (hmine s' r hc₁).2 (hnobody t₂ s' r (hlive t₂ h₂) hr hc₂)
        · rw [he₂, hself] at hc₂
          rw [hother t₁ he₁] at hc₁
          exact absurd (hmine s' r hc₂).2 (hnobody t₁ s' r (hlive t₁ h₁) hr hc₁)
        · rw [hother t₁ he₁] at hc₁
          rw [hother t₂ he₂] at hc₂
          exact h.sole t₁ t₂ s' r (hlive t₁ h₁) (hlive t₂ h₂) hr hc₁ hc₂
      next := by
        intro t' s' r ht' hr hb
        by_cases he : t' = t
        · subst he
          rw [hself, hx] at hb
          obtain ⟨-, hb⟩ := hb
          simp only [hat.2] at hb
          cases hb
        · rw [hother t' he] at hb ⊢
          exact h.next t' s' r (hlive t' ht') hr hb
      cursor := h.cursor
      collector := by
        refine h.collector.mono rfl (fun _ hs => hs) (fun _ _ ha => ha) (fun j hj => ⟨hword j ?_, rfl⟩) rfl
          fun _ => Nat.le_refl _
        rintro rfl
        rw [hfree] at hj
        exact absurd hj (by decide) }

/-- A publish: the owner's head store. -/
theorem publish [DecidableEq Thread] {t : Thread} {s : Session} {r : Nat} (hlive : st.LiveThread d t)
    (hpc : (st.threads t).pc = .publish s) (hring : (st.threads t).ring = some r) (hserves : st.Serves s r) :
    st.owner r = d.owner s ∧ st.head r ≤ (st.threads t).next + 1 ∧
    TableInv d ({ st with head := Function.update st.head r ((st.threads t).next + 1) }.setThread t
      { st.threads t with next := (st.threads t).next + 1, pc := .idle }) := by
  set x : ThreadState Session := { st.threads t with next := (st.threads t).next + 1, pc := .idle } with hx
  set st' := { st with head := Function.update st.head r ((st.threads t).next + 1) }.setThread t x with hst'
  have hself : st'.threads t = x := Function.update_self ..
  have hother : ∀ t', t' ≠ t → st'.threads t' = st.threads t' := fun t' ht' => Function.update_of_ne ht' _ _
  have hheads : ∀ j, j ≠ r → st'.head j = st.head j := fun j hj => Function.update_of_ne hj _ _
  have hat : st'.head r = (st.threads t).next + 1 := Function.update_self ..
  have hbound : (st.threads t).Bound d s r := by
    have := h.pc t
    rw [ThreadState.PcHolds, hpc] at this
    exact ⟨this, hring⟩
  have hnext := h.next t s r hlive hserves hbound
  have hword := h.holds t s r hlive hserves (.inr hbound)
  have hup : ∀ j, st.head j ≤ st'.head j := by
    intro j
    by_cases hj : j = r
    · rw [hj, hat]; omega
    · rw [hheads j hj]
  have hold : ∀ t' s' r', (st'.threads t').Claims d s' r' → (st.threads t').Claims d s' r' := by
    intro t' s' r' hc
    by_cases he : t' = t
    · subst he; rw [hself] at hc; exact hc
    · rw [hother t' he] at hc; exact hc
  have hstill : ∀ t', st'.LiveThread d t' → st.LiveThread d t' := by
    intro t' ht'
    by_cases he : t' = t
    · rw [he]; exact hlive
    · exact ⟨ht'.1, by rw [← hother t' he]; exact ht'.2⟩
  refine ⟨hword, by omega, ?_⟩
  exact
    { born := h.born
      started := h.started
      live := h.live
      current := h.current
      known := by
        intro t' s' hk
        by_cases he : t' = t
        · subst he; rw [hself] at hk; exact h.known t' s' hk
        · rw [hother t' he] at hk; exact h.known t' s' hk
      pc := by
        intro t'
        by_cases he : t' = t
        · rw [he, hself]; trivial
        · rw [hother t' he]; exact h.pc t'
      words := h.words
      holds := fun t' s' r' ht' hr hc => h.holds t' s' r' (hstill t' ht') hr (hold t' s' r' hc)
      sole := fun t₁ t₂ s' r' h₁ h₂ hr hc₁ hc₂ =>
        h.sole t₁ t₂ s' r' (hstill t₁ h₁) (hstill t₂ h₂) hr (hold t₁ s' r' hc₁) (hold t₂ s' r' hc₂)
      next := by
        intro t' s' r' ht' hr hb
        by_cases he : t' = t
        · subst he
          rw [hself] at hb ⊢
          have hr' : r' = r := Option.some.inj (hb.2.symm.trans hring)
          rw [hr', hat]
        · have hc := hold t' s' r' (.inr hb)
          have hr' : r' ≠ r := by
            rintro rfl
            have hs' : s' = s := d.owner_inj ((h.holds t' s' r' (hstill t' ht') hr hc).symm.trans hword)
            rw [hs'] at hc
            exact he (h.sole t' t s r' (hstill t' ht') hlive hserves hc (.inr hbound))
          rw [hother t' he] at hb ⊢
          rw [hheads r' hr']
          exact h.next t' s' r' (hstill t' ht') hr hb
      cursor := fun i => (h.cursor i).trans (hup i)
      collector := by
        refine h.collector.mono rfl (fun _ hs => hs) (fun _ _ ha => ha) (fun j hj => ⟨rfl, hheads j ?_⟩) rfl hup
        rintro rfl
        rw [hword, d.ringState_owner] at hj
        exact absurd hj (by decide) }

/-! ## Claim words -/

/-- A retire on a ring that no live thread claims through the session. -/
theorem retire {s : Session} (i : Nat) (hs : st.phase s ≠ .unborn)
    (hfree : st.Serves s i → ∀ t, st.LiveThread d t → ¬ (st.threads t).Claims d s i) :
    TableInv d (st.retire i (d.owner s)) := by
  unfold TableState.retire
  split
  · rename_i hword
    set st' := st.setOwner i (retiredWord (d.owner s)) with hst'
    have howner : st'.owner i = retiredWord (d.owner s) := Function.update_self ..
    have hkeep : ∀ j, j ≠ i → st'.owner j = st.owner j := fun j hj => Function.update_of_ne hj _ _
    exact
      { born := h.born
        started := h.started
        live := h.live
        current := h.current
        known := h.known
        pc := h.pc
        words := by
          intro j
          by_cases hj : j = i
          · exact .inr ⟨s, hs, .inr (by rw [hj, howner])⟩
          · obtain hw | ⟨s', hs', hw⟩ := h.words j
            · exact .inl ((hkeep j hj).trans hw)
            · exact .inr ⟨s', hs', hw.imp (hkeep j hj).trans (hkeep j hj).trans⟩
        holds := by
          intro t s' r ht hr hc
          have hown := h.holds t s' r ht hr hc
          by_cases hj : r = i
          · subst hj
            have he : s' = s := d.owner_inj (hown.symm.trans hword)
            rw [he] at hr hc
            exact absurd hc (hfree hr t ht)
          · rw [hkeep r hj]; exact hown
        sole := h.sole
        next := h.next
        cursor := h.cursor
        collector := by
          refine h.collector.mono rfl (fun _ hs => hs) (fun _ _ ha => ha) (fun j hj => ⟨hkeep j ?_, rfl⟩) rfl
            fun _ => Nat.le_refl _
          rintro rfl
          rw [hword, d.ringState_owner] at hj
          exact absurd hj (by decide) }
  · exact h

/-- The collector moves cursors, none past its head. -/
theorem setCollector {cursor : Nat → Nat} {lost : Nat} {collector : CollectorPc}
    (hcursor : ∀ i, cursor i ≤ st.head i)
    (hcollector : TableState.CollectorHolds d { st with cursor := cursor, lost := lost, collector := collector }) :
    TableInv d { st with cursor := cursor, lost := lost, collector := collector } :=
  { h with cursor := hcursor, collector := hcollector }

/-- A release of a retired ring. -/
theorem release {i j : Nat} (hretired : ringState (st.owner i) = kRingRetired) :
    TableInv d { st.setOwner i kRingFree with collector := .load j } := by
  set st' : TableState Thread Session Module Process :=
    { st.setOwner i kRingFree with collector := .load j } with hst'
  have howner : st'.owner i = kRingFree := Function.update_self ..
  have hkeep : ∀ j, j ≠ i → st'.owner j = st.owner j := fun j hj => Function.update_of_ne hj _ _
  exact
    { h with
      words := by
        intro k
        by_cases hk : k = i
        · exact .inl (by rw [hk, howner])
        · obtain hw | ⟨s', hs', hw⟩ := h.words k
          · exact .inl ((hkeep k hk).trans hw)
          · exact .inr ⟨s', hs', hw.imp (hkeep k hk).trans (hkeep k hk).trans⟩
      holds := by
        intro t s r ht hr hc
        have hown := h.holds t s r ht hr hc
        by_cases hj : r = i
        · subst hj
          rw [hown, d.ringState_owner] at hretired
          exact absurd hretired (by decide)
        · rw [hkeep r hj]; exact hown
      collector := trivial }

end TableInv

end SlickPerfmon
