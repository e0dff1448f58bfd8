import Mathlib.Tactic.Set
import Mathlib.Tactic.SplitIfs
import SlickPerfmon.Ring.TableReuse

/-!
# When a retired table is safe to reuse

`take_retired_table` waits for the modules a session has noted to move on, and a session does not note the module
that made it. As long as that module has moved on as well when its session's table is taken back, no other module
is left with its hot pointer at an ended session laid over the table of the running one; a restart made from
another module breaks it.

A hot pointer only moves forward, so a module noted in a later session has left the earlier ones.
-/

namespace SlickPerfmon

open Library

variable {Module : Type} [DecidableEq Module] {st : ReuseState Module}

namespace ReuseState

/-- The entry `take_retired_table` finds. -/
def firstReusable (st : ReuseState Module) (rings capacity : Nat) : List RetiredRing → Option RetiredRing
  | [] => none
  | r :: later => if st.reusable rings capacity r later then some r else firstReusable st rings capacity later

/-- The retired entry whose table a `start()` from `m` takes back, once it has shut the session before down. -/
def takenBack (st : ReuseState Module) (m : Module) (cfg : TableConfig) : Option RetiredRing :=
  if cfg.opens ∧ cfg.maxThreadRings > 0 then
    (st.shutdown m).firstReusable cfg.maxThreadRings cfg.threadRingCapacity (st.shutdown m).retired
  else none

/-- The module that made session `k` is the caller, or has its hot pointer elsewhere. -/
def CreatorMoved (st : ReuseState Module) (m : Module) (k : Nat) : Prop :=
  (st.sessions k).creator = m ∨ (st.hot (st.sessions k).creator).current ≠ some k

instance (m : Module) (k : Nat) : Decidable (st.CreatorMoved m k) := inferInstanceAs (Decidable (_ ∨ _))

/-- A step that takes a table back finds the session's creator moved. -/
def MovedOn : ReuseAction Module → ReuseState Module → Prop
  | .start m cfg, st => ∀ r ∈ st.takenBack m cfg, st.CreatorMoved m r.session
  | _, _ => True

instance (a : ReuseAction Module) (st : ReuseState Module) : Decidable (MovedOn a st) := by
  cases a <;> unfold MovedOn <;> infer_instance

/-- A session that is not the running one. -/
def Ended (st : ReuseState Module) (k : Nat) : Prop := k < st.started ∧ st.session ≠ some k

/-- No module but `m` has its hot pointer at an ended session laid over table `t`. -/
def LeftAlone (st : ReuseState Module) (m : Module) (t : Nat) : Prop :=
  ∀ m' k, m' ≠ m → (st.hot m').current = some k → st.Ended k → (st.sessions k).table ≠ some t

end ReuseState

/-- What runs with `MovedOn` steps keep. An entry that has lost its table has no module left at its session. -/
structure ReuseInv (st : ReuseState Module) : Prop where
  newest : ∀ k, st.session = some k → st.started = k + 1
  idle : st.session = none → st.table = none
  laid : ∀ k, st.session = some k → st.table = (st.sessions k).table
  older : ∀ r ∈ st.retired, r.session < st.started ∧ st.session ≠ some r.session
  sorted : st.retired.Pairwise fun r r' => r.session < r'.session
  ended : ∀ k, st.Ended k → ∃ r ∈ st.retired, r.session = k
  bound : ∀ m k, (st.hot m).current = some k → k < st.started
  live : ∀ m, (st.hot m).live = (st.hot m).current
  noted : ∀ m k, (st.hot m).current = some k → m = (st.sessions k).creator ∨ m ∈ (st.sessions k).modules ∨
    (st.sessions k).modulesFull = true
  forward : ∀ m j k, j < st.started → m ∈ (st.sessions j).modules → (st.hot m).current = some k → j ≤ k
  owned : ∀ r ∈ st.retired, ∀ t, r.table = some t → (st.sessions r.session).table = some t ∧ t < st.tables ∧
    st.table ≠ some t
  distinct : ∀ r ∈ st.retired, ∀ r' ∈ st.retired, ∀ t, r.table = some t → r'.table = some t →
    r.session = r'.session
  fresh : ∀ t, st.table = some t → t < st.tables
  known : ∀ k, k < st.started → ∀ t, (st.sessions k).table = some t → t < st.tables
  left : ∀ r ∈ st.retired, r.table = none → (st.sessions r.session).table ≠ none →
    ∀ m, (st.hot m).current ≠ some r.session

omit [DecidableEq Module] in
theorem ReuseInv.init (h : ReuseInit st) : ReuseInv st where
  newest k hk := by rw [h.session] at hk; cases hk
  idle _ := h.table
  laid k hk := by rw [h.session] at hk; cases hk
  older r hr := by rw [h.retired] at hr; cases hr
  sorted := by rw [h.retired]; exact .nil
  ended k hk := by
    have := hk.1
    rw [h.started] at this
    omega
  bound m k hk := by rw [h.hot] at hk; cases hk
  live m := by rw [h.hot]
  noted m k hk := by rw [h.hot] at hk; cases hk
  forward m j k hj := by rw [h.started] at hj; omega
  owned r hr := by rw [h.retired] at hr; cases hr
  distinct r hr := by rw [h.retired] at hr; cases hr
  fresh t ht := by rw [h.table] at ht; cases ht
  known k hk := by rw [h.started] at hk; omega
  left r hr := by rw [h.retired] at hr; cases hr

/-! ## `note_module` -/

namespace TableSession

variable {m m' : Module} {s : TableSession Module}

theorem noteModule_table : (s.noteModule m).table = s.table := by
  unfold noteModule
  split_ifs <;> rfl

theorem noteModule_noted : m = (s.noteModule m).creator ∨ m ∈ (s.noteModule m).modules ∨
    (s.noteModule m).modulesFull = true := by
  unfold noteModule
  split_ifs with hin
  · exact hin.imp_right .inl
  · exact .inr (.inl (List.mem_append_right _ (List.mem_singleton_self m)))
  · exact .inr (.inr rfl)

theorem noteModule_keeps (h : m' = s.creator ∨ m' ∈ s.modules ∨ s.modulesFull = true) :
    m' = (s.noteModule m).creator ∨ m' ∈ (s.noteModule m).modules ∨ (s.noteModule m).modulesFull = true := by
  unfold noteModule
  split_ifs
  · exact h
  · exact h.imp_right (Or.imp_left (List.mem_append_left _))
  · exact .inr (.inr rfl)

theorem mem_noteModule (h : m' ∈ (s.noteModule m).modules) : m' ∈ s.modules ∨ m' = m := by
  unfold noteModule at h
  split_ifs at h
  · exact .inl h
  · obtain h | h := List.mem_append.mp h
    · exact .inl h
    · exact .inr (List.mem_singleton.mp h)
  · exact .inl h

end TableSession

/-! ## One hot pointer set -/

theorem current_update {hot : Module → HotState} {m m' : Module} {x : Option Nat} {k : Nat}
    (h : (Function.update hot m ⟨x, x⟩ m').current = some k) :
    (m' = m ∧ x = some k) ∨ (m' ≠ m ∧ (hot m').current = some k) := by
  by_cases hm : m' = m
  · subst hm
    rw [Function.update_self] at h
    exact .inl ⟨rfl, h⟩
  · rw [Function.update_of_ne hm] at h
    exact .inr ⟨hm, h⟩

theorem live_update {hot : Module → HotState} (h : ∀ m, (hot m).live = (hot m).current) (m : Module) (x : Option Nat)
    (m' : Module) : (Function.update hot m ⟨x, x⟩ m').live = (Function.update hot m ⟨x, x⟩ m').current := by
  by_cases hm : m' = m
  · rw [hm, Function.update_self]
  · rw [Function.update_of_ne hm]
    exact h m'

/-! ## The steps -/

namespace ReuseInv

variable (h : ReuseInv st) {m : Module}
include h

/-- A module's pointer at session `k`, which is the running one or where it points already. -/
theorem point {k : Nat} (hk : st.session = some k ∨ (st.hot m).current = some k) :
    ReuseInv ((st.note m k).bindModule m (some k)) := by
  set st' := (st.note m k).bindModule m (some k) with hst'
  have hhot : ∀ m' j, (st'.hot m').current = some j →
      (m' = m ∧ j = k) ∨ (m' ≠ m ∧ (st.hot m').current = some j) := fun m' j hj =>
    (current_update hj).imp_left fun hm => ⟨hm.1, (Option.some.inj hm.2).symm⟩
  have hat : st'.sessions k = (st.sessions k).noteModule m := Function.update_self ..
  have helse : ∀ j, j ≠ k → st'.sessions j = st.sessions j := fun j hj => Function.update_of_ne hj _ _
  have htable : ∀ j, (st'.sessions j).table = (st.sessions j).table := by
    intro j
    by_cases hj : j = k
    · rw [hj, hat, TableSession.noteModule_table]
    · rw [helse j hj]
  have hlt : k < st.started := hk.elim (fun hs => by rw [h.newest k hs]; omega) (h.bound m k)
  exact
    { newest := h.newest
      idle := h.idle
      laid := fun j hj => (h.laid j hj).trans (htable j).symm
      older := h.older
      sorted := h.sorted
      ended := h.ended
      bound := by
        intro m' j hj
        rcases hhot m' j hj with ⟨-, rfl⟩ | ⟨-, hj⟩
        · exact hlt
        · exact h.bound m' j hj
      live := live_update h.live m (some k)
      noted := by
        intro m' j hj
        rcases hhot m' j hj with ⟨rfl, rfl⟩ | ⟨-, hj⟩
        · rw [hat]
          exact TableSession.noteModule_noted
        · have hold := h.noted m' j hj
          by_cases hjk : j = k
          · rw [hjk] at hold ⊢
            rw [hat]
            exact TableSession.noteModule_keeps hold
          · rw [helse j hjk]; exact hold
      forward := by
        intro m' j i hj hin hi
        have hold : m' ∈ (st.sessions j).modules ∨ (j = k ∧ m' = m) := by
          by_cases hjk : j = k
          · rw [hjk, hat] at hin
            rw [hjk]
            exact (TableSession.mem_noteModule hin).imp_right fun hm => ⟨rfl, hm⟩
          · rw [helse j hjk] at hin
            exact .inl hin
        rcases hhot m' i hi with ⟨hm, hik⟩ | ⟨hm, hi⟩
        · rw [hik]
          obtain hold | ⟨hjk, -⟩ := hold
          · rw [hm] at hold
            obtain hs | hs := hk
            · have hnew : st.started = k + 1 := h.newest k hs
              have hj : j < st.started := hj
              omega
            · exact h.forward m j k hj hold hs
          · exact Nat.le_of_eq hjk
        · obtain hold | ⟨-, hm'⟩ := hold
          · exact h.forward m' j i hj hold hi
          · exact absurd hm' hm
      owned := fun r hr t ht => by
        rw [htable]
        exact h.owned r hr t ht
      distinct := h.distinct
      fresh := h.fresh
      known := fun j hj t ht => h.known j hj t (by rw [← htable]; exact ht)
      left := by
        intro r hr hnone hsome m' hm'
        rw [htable] at hsome
        rcases hhot m' r.session hm' with ⟨-, hrk⟩ | ⟨-, hm'⟩
        · obtain hs | hs := hk
          · exact (h.older r hr).2 (by rw [hrk]; exact hs)
          · exact h.left r hr hnone hsome m (by rw [hrk]; exact hs)
        · exact h.left r hr hnone hsome m' hm' }

/-- A module's pointer cleared. -/
theorem unpoint : ReuseInv (st.bindModule m none) := by
  have hold : ∀ m' k, ((st.bindModule m none).hot m').current = some k → (st.hot m').current = some k := by
    intro m' k hk
    rcases current_update hk with ⟨-, hk⟩ | ⟨-, hk⟩
    · cases hk
    · exact hk
  exact
    { h with
      bound := fun m' k hk => h.bound m' k (hold m' k hk)
      live := live_update h.live m none
      noted := fun m' k hk => h.noted m' k (hold m' k hk)
      forward := fun m' j k hj hin hk => h.forward m' j k hj hin (hold m' k hk)
      left := fun r hr hnone hsome m' hm' => h.left r hr hnone hsome m' (hold m' _ hm') }

/-- A thread binds through a hot pointer of its module. -/
theorem bindThread {hot : Option Nat} (hhot : hot = (st.hot m).current) : ReuseInv (st.bindThread m hot) := by
  cases hot with
  | none => exact h
  | some k =>
      have hp := h.point (m := m) (.inr hhot.symm)
      have hsame : (st.note m k).bindModule m (some k) = st.note m k := by
        have hm : st.hot m = ⟨some k, some k⟩ := by
          have hl := h.live m
          cases hm : st.hot m with
          | mk current live =>
              rw [hm] at hhot hl
              cases hhot
              cases hl
              rfl
        unfold ReuseState.bindModule ReuseState.note
        simp only
        rw [← hm, Function.update_eq_self]
      rwa [hsame] at hp

theorem attach : ReuseInv (st.attach m) := by
  unfold ReuseState.attach
  cases hs : st.session with
  | none => exact h.unpoint
  | some k => exact h.point (.inl hs)

theorem shutdown : ReuseInv (st.shutdown m) := by
  unfold ReuseState.shutdown
  cases hs : st.session with
  | none => exact h
  | some k =>
      have hu := h.unpoint (m := m)
      have hnew := h.newest k hs
      exact
        { hu with
          newest := nofun
          idle := fun _ => rfl
          laid := nofun
          older := by
            intro r hr
            obtain hr | hr := List.mem_append.mp hr
            · exact ⟨(h.older r hr).1, nofun⟩
            · rw [List.mem_singleton.mp hr]
              exact ⟨by show k < st.started; omega, nofun⟩
          sorted := by
            refine List.pairwise_append.mpr ⟨h.sorted, List.pairwise_singleton _ _, fun r hr r' hr' => ?_⟩
            rw [List.mem_singleton.mp hr']
            have hr₁ := (h.older r hr).1
            have hr₂ : r.session ≠ k := fun he => (h.older r hr).2 (by rw [hs, he])
            show r.session < k
            omega
          ended := by
            intro j hj
            by_cases hjk : j = k
            · exact ⟨⟨k, st.table⟩, List.mem_append_right _ (List.mem_singleton_self _), hjk.symm⟩
            · obtain ⟨r, hr, hrj⟩ := h.ended j ⟨hj.1, fun he => hjk (Option.some.inj (he.symm.trans hs))⟩
              exact ⟨r, List.mem_append_left _ hr, hrj⟩
          owned := by
            intro r hr t ht
            obtain hr | hr := List.mem_append.mp hr
            · exact ⟨(h.owned r hr t ht).1, (h.owned r hr t ht).2.1, nofun⟩
            · rw [List.mem_singleton.mp hr] at ht ⊢
              exact ⟨(h.laid k hs).symm.trans ht, h.fresh t ht, nofun⟩
          distinct := by
            intro r hr r' hr' t ht ht'
            obtain hr | hr := List.mem_append.mp hr <;> obtain hr' | hr' := List.mem_append.mp hr'
            · exact h.distinct r hr r' hr' t ht ht'
            · rw [List.mem_singleton.mp hr'] at ht'
              exact absurd ht' (h.owned r hr t ht).2.2
            · rw [List.mem_singleton.mp hr] at ht
              exact absurd ht (h.owned r' hr' t ht').2.2
            · rw [List.mem_singleton.mp hr, List.mem_singleton.mp hr']
          fresh := nofun
          left := by
            intro r hr hnone hsome
            obtain hr | hr := List.mem_append.mp hr
            · exact hu.left r hr hnone hsome
            · rw [List.mem_singleton.mp hr] at hnone hsome
              exact absurd ((h.laid k hs).symm.trans hnone) hsome }

/-- A new session from `m`, over no table, a fresh one or one taken back: the retired entries stay, but for the
tables taken from sessions that only `m` may still point at. -/
theorem create {retired : List RetiredRing} {table : Option Nat} {tables rings capacity : Nat}
    (hs : st.session = none) (hsame : retired.map (·.session) = st.retired.map (·.session))
    (hkeep : ∀ r ∈ retired, r ∈ st.retired ∨
      r.table = none ∧ ∀ m', m' ≠ m → (st.hot m').current ≠ some r.session)
    (hother : ∀ r ∈ retired, ∀ t, r.table = some t → table ≠ some t) (htables : st.tables ≤ tables)
    (hfresh : ∀ t, table = some t → t < tables) :
    ReuseInv
      { st with
        sessions := Function.update st.sessions st.started ⟨m, [], false, table, rings, capacity⟩
        started := st.started + 1
        session := some st.started
        table := table
        tables := tables
        retired := retired
        hot := Function.update st.hot m ⟨some st.started, some st.started⟩ } := by
  set new : TableSession Module := ⟨m, [], false, table, rings, capacity⟩ with hnew
  set st' : ReuseState Module := { st with
        sessions := Function.update st.sessions st.started new
        started := st.started + 1
        session := some st.started
        table := table
        tables := tables
        retired := retired
        hot := Function.update st.hot m ⟨some st.started, some st.started⟩ } with hst'
  have hat : st'.sessions st.started = new := Function.update_self ..
  have hold : ∀ j, j < st.started → st'.sessions j = st.sessions j :=
    fun j hj => Function.update_of_ne (Nat.ne_of_lt hj) _ _
  have hhot : ∀ m' k, (st'.hot m').current = some k →
      (m' = m ∧ k = st.started) ∨ (m' ≠ m ∧ (st.hot m').current = some k) := fun m' k hk =>
    (current_update hk).imp_left fun hm => ⟨hm.1, (Option.some.inj hm.2).symm⟩
  have hback : ∀ r ∈ retired, ∃ r₀ ∈ st.retired, r₀.session = r.session := fun r hr => by
    have hin : r.session ∈ st.retired.map (·.session) := hsame ▸ List.mem_map_of_mem hr
    exact List.mem_map.mp hin
  have hlt : ∀ r ∈ retired, r.session < st.started := fun r hr => by
    obtain ⟨r₀, hr₀, he⟩ := hback r hr
    exact he ▸ (h.older r₀ hr₀).1
  exact
    { newest := fun k hk => by rw [← Option.some.inj hk]
      idle := nofun
      laid := fun k hk => by rw [← Option.some.inj hk, hat]
      older := fun r hr => ⟨Nat.lt_succ_of_lt (hlt r hr), fun he => by
        have := hlt r hr
        have := Option.some.inj he
        omega⟩
      sorted := by
        have := List.pairwise_map.mpr h.sorted
        rw [← hsame] at this
        exact List.pairwise_map.mp this
      ended := by
        intro k hk
        have hks : k ≠ st.started := fun he => hk.2 (by rw [he])
        have hk1 : k < st.started + 1 := hk.1
        obtain ⟨r, hr, he⟩ := h.ended k ⟨by omega, by rw [hs]; exact nofun⟩
        have hin : k ∈ retired.map (·.session) := hsame ▸ he ▸ List.mem_map_of_mem hr
        exact List.mem_map.mp hin
      bound := by
        intro m' k hk
        rcases hhot m' k hk with ⟨-, rfl⟩ | ⟨-, hk⟩
        · exact Nat.lt_succ_self _
        · exact Nat.lt_succ_of_lt (h.bound m' k hk)
      live := live_update h.live m (some st.started)
      noted := by
        intro m' k hk
        rcases hhot m' k hk with ⟨rfl, rfl⟩ | ⟨-, hk⟩
        · rw [hat]
          exact .inl rfl
        · rw [hold k (h.bound m' k hk)]
          exact h.noted m' k hk
      forward := by
        intro m' j k hj hin hk
        have hjs : j < st.started := by
          refine Nat.lt_of_le_of_ne (Nat.le_of_lt_succ hj) fun he => ?_
          rw [he, hat] at hin
          cases hin
        rcases hhot m' k hk with ⟨-, rfl⟩ | ⟨-, hk⟩
        · exact Nat.le_of_lt hjs
        · rw [hold j hjs] at hin
          exact h.forward m' j k hjs hin hk
      owned := by
        intro r hr t ht
        obtain hin | ⟨hnone, -⟩ := hkeep r hr
        · obtain ⟨hover, hlt', -⟩ := h.owned r hin t ht
          rw [hold _ (hlt r hr)]
          exact ⟨hover, Nat.lt_of_lt_of_le hlt' htables, hother r hr t ht⟩
        · rw [hnone] at ht; cases ht
      distinct := by
        intro r hr r' hr' t ht ht'
        obtain hin | ⟨hnone, -⟩ := hkeep r hr
        · obtain hin' | ⟨hnone, -⟩ := hkeep r' hr'
          · exact h.distinct r hin r' hin' t ht ht'
          · rw [hnone] at ht'; cases ht'
        · rw [hnone] at ht; cases ht
      fresh := hfresh
      known := by
        intro k hk t ht
        by_cases hks : k = st.started
        · rw [hks, hat] at ht
          exact hfresh t ht
        · have hk' : k < st.started + 1 := hk
          rw [hold k (by omega)] at ht
          exact Nat.lt_of_lt_of_le (h.known k (by omega) t ht) htables
      left := by
        intro r hr hnone hsome m' hm'
        rcases hhot m' r.session hm' with ⟨-, he⟩ | ⟨hm, hm'⟩
        · exact absurd he (Nat.ne_of_lt (hlt r hr))
        · obtain hin | ⟨-, hgone⟩ := hkeep r hr
          · rw [hold _ (hlt r hr)] at hsome
            exact h.left r hin hnone hsome m' hm'
          · exact hgone m' hm hm' }

end ReuseInv

/-! ## The table taken back -/

theorem firstReusable_none {rings capacity : Nat} {l : List RetiredRing}
    (h : st.firstReusable rings capacity l = none) : st.takeRetiredTable rings capacity l = none := by
  induction l with
  | nil => rfl
  | cons r later ih =>
      unfold ReuseState.firstReusable at h
      unfold ReuseState.takeRetiredTable
      split at h
      · cases h
      · rename_i hr
        rw [if_neg hr, ih h]
        rfl

theorem firstReusable_some {rings capacity : Nat} {l : List RetiredRing} {r : RetiredRing}
    (h : st.firstReusable rings capacity l = some r) :
    ∃ pre later t, l = pre ++ r :: later ∧ r.table = some t ∧
      st.modulesMovedOn (st.sessions r.session) later = true ∧
      st.takeRetiredTable rings capacity l = some (t, pre ++ { r with table := none } :: later) := by
  induction l with
  | nil => cases h
  | cons r₀ later ih =>
      unfold ReuseState.firstReusable at h
      unfold ReuseState.takeRetiredTable
      split at h
      · rename_i hr
        cases h
        simp only [ReuseState.reusable, Bool.and_eq_true] at hr
        obtain ⟨t, ht⟩ := Option.isSome_iff_exists.mp hr.1.1.1
        exact ⟨[], later, t, rfl, ht, hr.2, by rw [if_pos (by simpa [ReuseState.reusable] using hr), ht]; rfl⟩
      · rename_i hr
        obtain ⟨pre, later', t, hl, ht, hmoved, htake⟩ := ih h
        exact ⟨r₀ :: pre, later', t, by rw [hl]; rfl, ht, hmoved, by rw [if_neg hr, htake]; rfl⟩

/-- With its creator moved on, the session a table is taken from has no other module left, nor have the sessions
that had the table before. -/
theorem ReuseInv.leftAlone (h : ReuseInv st) {m : Module} {pre later : List RetiredRing} {r : RetiredRing} {t : Nat}
    (hretired : st.retired = pre ++ r :: later) (ht : r.table = some t)
    (hmoved : st.modulesMovedOn (st.sessions r.session) later = true) (hcreator : st.CreatorMoved m r.session) :
    st.LeftAlone m t := by
  intro m' k hm hhot hended hover
  have hr : r ∈ st.retired := by rw [hretired]; exact List.mem_append_right _ List.mem_cons_self
  obtain ⟨r', hr', hk⟩ := h.ended k hended
  subst hk
  cases hT : r'.table with
  | none =>
      exact h.left r' hr' hT (by rw [hover]; exact nofun) m' hhot
  | some t' =>
      have htt : t' = t := Option.some.inj (((h.owned r' hr' t' hT).1.symm.trans hover))
      -- one entry owns the table
      have he : r'.session = r.session := h.distinct r' hr' r hr t (htt ▸ hT) ht
      rw [he] at hhot
      simp only [ReuseState.modulesMovedOn, Bool.and_eq_true, Bool.not_eq_true', List.all_eq_true,
        List.any_eq_true, decide_eq_true_eq] at hmoved
      obtain hc | hin | hfull := h.noted m' r.session hhot
      · obtain hc' | hc' := hcreator
        · exact hm (hc.trans hc')
        · exact hc' (hc ▸ hhot)
      · obtain ⟨r₂, hr₂, hin₂⟩ := hmoved.2 m' hin
        have hlt : r.session < r₂.session := by
          have := h.sorted
          rw [hretired] at this
          exact List.rel_of_pairwise_cons (List.pairwise_append.mp this).2.1 hr₂
        have hr₂' : r₂ ∈ st.retired := by
          rw [hretired]
          exact List.mem_append_right _ (List.mem_cons_of_mem _ hr₂)
        have := h.forward m' r₂.session r.session (h.older r₂ hr₂').1 hin₂ hhot
        omega
      · rw [hfull] at hmoved
        exact absurd hmoved.1 nofun

/-! ## `start()` -/

section

variable {m : Module} {cfg : TableConfig}

theorem shutdown_session : (st.shutdown m).session = none := by
  unfold ReuseState.shutdown
  split
  · assumption
  · rfl

theorem shutdown_sessions : (st.shutdown m).sessions = st.sessions := by
  unfold ReuseState.shutdown
  split <;> rfl

theorem shutdown_tables : (st.shutdown m).tables = st.tables := by
  unfold ReuseState.shutdown
  split <;> rfl

theorem shutdown_hot {m' : Module} (hm : m' ≠ m) : (st.shutdown m).hot m' = st.hot m' := by
  unfold ReuseState.shutdown
  split
  · rfl
  · exact Function.update_of_ne hm _ _

theorem creatorMoved_shutdown {k : Nat} : (st.shutdown m).CreatorMoved m k ↔ st.CreatorMoved m k := by
  unfold ReuseState.CreatorMoved
  rw [shutdown_sessions]
  by_cases hm : (st.sessions k).creator = m
  · exact ⟨fun _ => .inl hm, fun _ => .inl hm⟩
  · rw [shutdown_hot hm]

/-- Binding the caller's own thread notes nothing: it is the session's creator. -/
theorem start_opens (hopens : cfg.opens = true) : st.start m cfg =
    let st := (st.shutdown m).acquireTable cfg
    { st with
      sessions := Function.update st.sessions st.started
        ⟨m, [], false, st.table, cfg.maxThreadRings, cfg.threadRingCapacity⟩
      started := st.started + 1
      session := some st.started
      hot := Function.update st.hot m ⟨some st.started, some st.started⟩ } := by
  unfold ReuseState.start
  simp only [hopens, if_true, ReuseState.createSession, ReuseState.bindModule, ReuseState.bindThread,
    ReuseState.note, Function.update_self, TableSession.noteModule, true_or, Function.update_idem]

theorem start_closed (hopens : cfg.opens = false) : st.start m cfg = st.shutdown m := by
  unfold ReuseState.start
  simp only [hopens, Bool.false_eq_true, if_false]

theorem acquireTable_rest (st : ReuseState Module) (cfg : TableConfig) :
    ((st.acquireTable cfg).hot, (st.acquireTable cfg).sessions, (st.acquireTable cfg).started) =
      (st.hot, st.sessions, st.started) := by
  unfold ReuseState.acquireTable
  split
  · split <;> rfl
  · rfl

/-- A start leaves what the other modules point at. -/
theorem start_hot {m' : Module} (hopens : cfg.opens = true) (hm : m' ≠ m) :
    (st.start m cfg).hot m' = (st.shutdown m).hot m' := by
  obtain ⟨hhot, -⟩ := Prod.mk.inj (acquireTable_rest (st.shutdown m) cfg)
  rw [start_opens hopens]
  simp only
  rw [Function.update_of_ne hm, hhot]

theorem start_session (hopens : cfg.opens = true) : (st.start m cfg).session = some (st.shutdown m).started ∧
    (st.start m cfg).started = (st.shutdown m).started + 1 := by
  obtain ⟨-, hrest⟩ := Prod.mk.inj (acquireTable_rest (st.shutdown m) cfg)
  obtain ⟨-, hstarted⟩ := Prod.mk.inj hrest
  rw [start_opens hopens]
  simp only
  rw [hstarted]
  exact ⟨rfl, rfl⟩

theorem start_sessions {k : Nat} (hopens : cfg.opens = true) (hk : k < (st.shutdown m).started) :
    (st.start m cfg).sessions k = (st.shutdown m).sessions k := by
  obtain ⟨-, hrest⟩ := Prod.mk.inj (acquireTable_rest (st.shutdown m) cfg)
  obtain ⟨hsessions, hstarted⟩ := Prod.mk.inj hrest
  rw [start_opens hopens]
  simp only
  rw [hsessions, hstarted, Function.update_of_ne (Nat.ne_of_lt hk)]

theorem start_table (hopens : cfg.opens = true) :
    (st.start m cfg).table = ((st.shutdown m).acquireTable cfg).table := by
  rw [start_opens hopens]

/-- Without a table to take back, the new session's table is new, if it has one. -/
theorem acquireTable_fresh (hopens : cfg.opens = true) (hnone : st.takenBack m cfg = none) :
    ∃ table tables, (st.shutdown m).acquireTable cfg = { st.shutdown m with table := table, tables := tables } ∧
      st.tables ≤ tables ∧ ∀ t, table = some t → (st.shutdown m).table = some t ∨ st.tables ≤ t ∧ t < tables := by
  unfold ReuseState.takenBack at hnone
  unfold ReuseState.acquireTable
  split
  · rename_i hn
    rw [if_pos ⟨hopens, hn⟩] at hnone
    rw [firstReusable_none hnone, shutdown_tables]
    exact ⟨some st.tables, st.tables + 1, rfl, Nat.le_succ _, fun t ht => .inr (by cases ht; omega)⟩
  · exact ⟨(st.shutdown m).table, st.tables, by rw [← shutdown_tables], Nat.le_refl _, fun _ ht => .inl ht⟩

theorem acquireTable_taken {r : RetiredRing} (hr : st.takenBack m cfg = some r) : cfg.opens = true ∧
    ∃ pre later t, (st.shutdown m).retired = pre ++ r :: later ∧ r.table = some t ∧
      (st.shutdown m).modulesMovedOn ((st.shutdown m).sessions r.session) later = true ∧
      (st.shutdown m).acquireTable cfg =
        { st.shutdown m with table := some t, retired := pre ++ { r with table := none } :: later } := by
  unfold ReuseState.takenBack at hr
  split at hr
  · rename_i hc
    obtain ⟨pre, later, t, hl, ht, hmoved, htake⟩ := firstReusable_some hr
    refine ⟨hc.1, pre, later, t, hl, ht, hmoved, ?_⟩
    unfold ReuseState.acquireTable
    rw [if_pos hc.2, htake]
  · cases hr

variable (h : ReuseInv st)
include h

theorem ReuseInv.start (hmoved : ReuseState.MovedOn (.start m cfg) st) : ReuseInv (st.start m cfg) := by
  have h₁ : ReuseInv (st.shutdown m) := h.shutdown
  cases hopens : cfg.opens with
  | false => rw [start_closed hopens]; exact h₁
  | true =>
      rw [start_opens hopens]
      cases hr : st.takenBack m cfg with
      | none =>
          obtain ⟨table, tables, hacq, hle, htable⟩ := acquireTable_fresh hopens hr
          have hnone : (st.shutdown m).table = none := h₁.idle shutdown_session
          have hnew : ∀ t, table = some t → st.tables ≤ t ∧ t < tables := fun t ht =>
            (htable t ht).resolve_left fun he => by rw [hnone] at he; cases he
          rw [hacq]
          refine h₁.create shutdown_session rfl (fun r hr => .inl hr) (fun r hr t ht ht' => ?_)
            (by rw [shutdown_tables]; exact hle) fun t ht => (hnew t ht).2
          have := (h₁.owned r hr t ht).2.1
          rw [shutdown_tables] at this
          have := (hnew t ht').1
          omega
      | some r =>
          obtain ⟨-, pre, later, t, hl, ht, hmods, hacq⟩ := acquireTable_taken hr
          have hin : r ∈ (st.shutdown m).retired := hl ▸ List.mem_append_right _ List.mem_cons_self
          have hown := h₁.owned r hin t ht
          have halone := h₁.leftAlone hl ht hmods (creatorMoved_shutdown.mpr (hmoved r hr))
          rw [hacq]
          refine h₁.create shutdown_session ?_ (fun r' hr' => ?_) (fun r' hr' t' ht' he => ?_) (Nat.le_refl _)
            fun t' ht' => Option.some.inj ht' ▸ hown.2.1
          · rw [hl]
            simp only [List.map_append, List.map_cons]
          · obtain hr' | hr' := List.mem_append.mp hr'
            · exact .inl (hl ▸ List.mem_append_left _ hr')
            · obtain rfl | hr' := List.mem_cons.mp hr'
              · refine .inr ⟨rfl, fun m' hm hhot => halone m' _ hm hhot ⟨?_, ?_⟩ hown.1⟩
                · exact (h₁.older r hin).1
                · exact (h₁.older r hin).2
              · exact .inl (hl ▸ List.mem_append_right _ (List.mem_cons_of_mem _ hr'))
          · -- no other entry owns the table taken
            cases he
            have hsorted := h₁.sorted
            rw [hl] at hsorted
            obtain ⟨-, hafter, hbefore⟩ := List.pairwise_append.mp hsorted
            obtain hr' | hr' := List.mem_append.mp hr'
            · have hlt := hbefore r' hr' r List.mem_cons_self
              have := h₁.distinct r' (hl ▸ List.mem_append_left _ hr') r hin t ht' ht
              omega
            · obtain rfl | hr' := List.mem_cons.mp hr'
              · cases ht'
              · have hlt := List.rel_of_pairwise_cons hafter hr'
                have := h₁.distinct r' (hl ▸ List.mem_append_right _ (List.mem_cons_of_mem _ hr')) r hin t ht' ht
                omega

/-- A `start()` that lays the new session over a table made before leaves no other module behind on it exactly
when the session the table is taken from has its creator moved. -/
theorem ReuseInv.leftAlone_iff {t : Nat} (ht : (st.start m cfg).table = some t) (hold : t < st.tables) :
    (st.start m cfg).LeftAlone m t ↔ ReuseState.MovedOn (.start m cfg) st := by
  have h₁ : ReuseInv (st.shutdown m) := h.shutdown
  have hnone : (st.shutdown m).table = none := h₁.idle shutdown_session
  cases hopens : cfg.opens with
  | false =>
      rw [start_closed hopens, hnone] at ht
      cases ht
  | true =>
      rw [start_table hopens] at ht
      have hnew : (st.start m cfg).session = some (st.shutdown m).started ∧
          (st.start m cfg).started = (st.shutdown m).started + 1 := start_session hopens
      obtain ⟨hsession, hstarted⟩ := hnew
      cases hr : st.takenBack m cfg with
      | none =>
          obtain ⟨table, tables, hacq, -, htable⟩ := acquireTable_fresh hopens hr
          rw [hacq] at ht
          obtain he | he := htable t ht
          · rw [hnone] at he; cases he
          · omega
      | some r =>
          obtain ⟨-, pre, later, t', hl, ht', hmods, hacq⟩ := acquireTable_taken hr
          rw [hacq] at ht
          cases Option.some.inj ht
          have hin : r ∈ (st.shutdown m).retired := hl ▸ List.mem_append_right _ List.mem_cons_self
          obtain ⟨hlt, hne⟩ := h₁.older r hin
          refine ⟨fun halone r' hr' => ?_, fun hmoved m' k hm hhot hended hover => ?_⟩
          · cases hr'.symm.trans hr
            rw [← creatorMoved_shutdown]
            by_contra hstay
            obtain ⟨hc, hhot⟩ := not_or.mp hstay
            refine halone _ r.session hc ?_ ⟨by omega, fun he => ?_⟩ ?_
            · rw [start_hot hopens hc]
              exact not_not.mp hhot
            · have := Option.some.inj (hsession.symm.trans he)
              omega
            · rw [start_sessions hopens hlt]
              exact (h₁.owned r hin t ht').1
          · have hks : k ≠ (st.shutdown m).started := fun he => hended.2 (by rw [hsession, he])
            have hk := hended.1
            rw [hstarted] at hk
            rw [start_hot hopens hm] at hhot
            rw [start_sessions hopens (by omega)] at hover
            exact h₁.leftAlone hl ht' hmods (creatorMoved_shutdown.mpr (hmoved r hr)) m' k hm hhot
              ⟨by omega, by rw [shutdown_session]; exact nofun⟩ hover

end

theorem ReuseInv.step (h : ReuseInv st) {a : ReuseAction Module} {st' : ReuseState Module}
    (hmoved : ReuseState.MovedOn a st) (hs : ReuseState.step a st = some st') : ReuseInv st' := by
  cases a with
  | start m cfg => cases hs; exact h.start hmoved
  | shutdown m => cases hs; exact h.shutdown
  | attach m => cases hs; exact h.attach
  | detach m => cases hs; exact h.unpoint
  | stamp m => cases hs; exact h.bindThread rfl
  | prepare m => cases hs; exact h.bindThread (h.live m)

theorem ReuseInv.reachable (h : ((reuseSystem Module).restrict ReuseState.MovedOn).Reachable st) : ReuseInv st :=
  System.Reachable.invariant (fun _ => .init)
    (fun _ _ _ hi hs => hi.step (System.restrict_step.mp hs).1 (System.restrict_step.mp hs).2) h

/-- **Table reuse.** In every run in which each `start()` that takes a table back finds the creator of the session
it is taken from moved on: no module has its hot pointer at an ended session laid over the running session's
table, and the next `start()` that lays a session over an old table keeps it so exactly on that condition. -/
theorem retired_table_left_alone (h : ((reuseSystem Module).restrict ReuseState.MovedOn).Reachable st) :
    (∀ k t, st.session = some k → (st.sessions k).table = some t → ∀ m j, (st.hot m).current = some j →
      st.Ended j → (st.sessions j).table ≠ some t) ∧
    ∀ m cfg t, (st.start m cfg).table = some t → t < st.tables →
      ((st.start m cfg).LeftAlone m t ↔ ReuseState.MovedOn (.start m cfg) st) := by
  have hinv := ReuseInv.reachable h
  refine ⟨fun k t hk ht m j hj hended hover => ?_, fun m cfg t ht hold => hinv.leftAlone_iff ht hold⟩
  obtain ⟨r, hr, rfl⟩ := hinv.ended j hended
  cases hT : r.table with
  | none => exact hinv.left r hr hT (by rw [hover]; exact nofun) m hj
  | some t' =>
      obtain ⟨hover', -, hne⟩ := hinv.owned r hr t' hT
      have he : t' = t := Option.some.inj (hover'.symm.trans hover)
      exact hne (by rw [he, hinv.laid k hk, ht])

/-! ### Three restarts around an attached module, and a restart from another module -/

def fourRings : TableConfig := ⟨4, 16, true⟩

def notStarted : ReuseState Bool :=
  ⟨fun _ => ⟨false, [], false, none, 0, 0⟩, 0, none, none, 0, [], fun _ => ⟨none, none⟩⟩

theorem notStarted_init : ReuseInit notStarted := ⟨rfl, rfl, rfl, rfl, rfl, fun _ => rfl⟩

/-- The other module attaches to each session; the third takes the first one's table back. -/
theorem retired_table_left_alone_threeRestarts :
    ∃ st : ReuseState Bool, (st.start false fourRings).table = some 0 ∧ st.tables = 2 ∧
      (st.start false fourRings).LeftAlone false 0 := by
  let M := (reuseSystem Bool).restrict ReuseState.MovedOn
  let calls : List (ReuseAction Bool) :=
    [.start false fourRings, .attach true, .stamp true, .start false fourRings, .attach true]
  have hrun : (M.run calls notStarted).isSome := by decide
  obtain ⟨st, hst⟩ := Option.isSome_iff_exists.mp hrun
  have hend : (M.run calls notStarted).map (fun st =>
      ((st.start false fourRings).table, st.tables, decide (ReuseState.MovedOn (.start false fourRings) st))) =
      some (some 0, 2, true) := by decide
  rw [hst] at hend
  simp only [Option.map_some, Option.some.injEq, Prod.mk.injEq, decide_eq_true_eq] at hend
  obtain ⟨htable, htables, hmoved⟩ := hend
  obtain ⟨-, hiff⟩ := retired_table_left_alone ((System.Reachable.init notStarted_init).run hst)
  exact ⟨st, htable, htables, (hiff false fourRings 0 htable (by omega)).mpr hmoved⟩

/-- One module starts and stamps, the other starts the Collector again: the second session is laid over the first
one's table with the first module's pointer still at the first session. -/
theorem retired_table_taken_under_its_creator :
    ¬ ∀ st : ReuseState Bool, (reuseSystem Bool).Reachable st → ∀ m cfg t, (st.start m cfg).table = some t →
      t < st.tables → (st.start m cfg).LeftAlone m t := by
  intro hall
  let M := reuseSystem Bool
  let calls : List (ReuseAction Bool) := [.start false fourRings, .stamp false]
  have hrun : (M.run calls notStarted).isSome := by decide
  obtain ⟨st, hst⟩ := Option.isSome_iff_exists.mp hrun
  have hend : (M.run calls notStarted).map (fun st => (st.tables, (st.start true fourRings).table,
      (st.start true fourRings).session, (st.start true fourRings).started)) =
      some (1, some 0, some 1, 2) := by decide
  have hleft : (M.run calls notStarted).map (fun st => (((st.start true fourRings).hot false).current,
      ((st.start true fourRings).sessions 0).table)) = some (some 0, some 0) := by decide
  rw [hst] at hend hleft
  simp only [Option.map_some, Option.some.injEq, Prod.mk.injEq] at hend hleft
  obtain ⟨htables, htable, hsession, hstarted⟩ := hend
  obtain ⟨hhot, hover⟩ := hleft
  have halone := hall st ((System.Reachable.init notStarted_init).run hst) true fourRings 0 htable (by omega)
  exact halone false 0 nofun hhot ⟨by rw [hstarted]; decide, by rw [hsession]; exact nofun⟩ hover

end SlickPerfmon
