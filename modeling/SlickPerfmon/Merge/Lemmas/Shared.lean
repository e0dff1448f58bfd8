import SlickPerfmon.Merge.Lemmas.Source
import Mathlib.Data.List.Sort

/-!
# Reading the shared ring

Whatever the batches are, the values that were published go to the pairer and the stamps into the stage, which stays
in timestamp order.
-/

namespace SlickPerfmon

open Library

/-- Slot `k` is published once a `read()` with the cursor there hands something out. -/
def World.Published (env : World) (t k : Nat) : Prop := 0 < env.read t k

/-- Producers only publish more, and `read()` hands out published slots in order and stops at an unpublished one. -/
structure World.Sound (env : World) : Prop where
  heads : ∀ r t t', t ≤ t' → env.head t r ≤ env.head t' r
  handsOut : ∀ t c i, i < env.read t c → env.Published t (c + i)
  stays : ∀ t t' k, t ≤ t' → env.Published t k → env.Published t' k

/-- The stage between two reads: stamps in timestamp order. -/
structure Staged (stage : List Sample) : Prop where
  stamps : ∀ s ∈ stage, s.isStamp = true
  sorted : stage.Pairwise fun a b => a.timestamp ≤ b.timestamp

/-! ## The stage -/

instance : Std.Total fun a b : Sample => b.timestamp ≤ a.timestamp := ⟨fun a b => UInt64.le_total b.timestamp a.timestamp⟩

instance : IsTrans Sample fun a b => b.timestamp ≤ a.timestamp := ⟨fun _ _ _ hab hbc => UInt64.le_trans hbc hab⟩

theorem stageInsert_eq (s : Sample) (l : List Sample) :
    Merger.stageInsert s l = l.orderedInsert (fun a b => b.timestamp ≤ a.timestamp) s := by
  induction l with
  | nil => rfl
  | cons x l ih =>
      rw [Merger.stageInsert, List.orderedInsert_cons, ih]
      by_cases h : x.timestamp > s.timestamp
      · rw [if_pos h, if_neg (UInt64.not_le.mpr h)]
      · rw [if_neg h, if_pos (UInt64.not_lt.mp h)]

theorem stageInsert_perm (s : Sample) (stage : List Sample) :
    (Merger.stageInsert s stage.reverse).reverse.Perm (stage ++ [s]) := by
  rw [stageInsert_eq]
  refine (List.reverse_perm _).trans ((List.perm_orderedInsert _ s _).trans ?_)
  exact (List.Perm.cons s (List.reverse_perm stage)).trans (List.perm_append_singleton s stage).symm

theorem Staged.insert {stage : List Sample} {s : Sample} (h : Staged stage) (hs : s.isStamp = true) :
    Staged (Merger.stageInsert s stage.reverse).reverse where
  stamps x hx := by
    rcases List.mem_append.mp ((stageInsert_perm s stage).mem_iff.mp hx) with hx | hx
    · exact h.stamps x hx
    · rw [List.mem_singleton.mp hx]
      exact hs
  sorted := by
    rw [List.pairwise_reverse, stageInsert_eq]
    exact List.Pairwise.orderedInsert s _ (List.pairwise_reverse.mpr h.sorted)

/-! ## A read -/

section Read

variable {A : Type} [Accum A] (H : HeapLib)

/-- From `m` to `m'` the pairer is handed `trace`. -/
structure HandsOver (m m' : Merger A) (trace : List (Option Nat × Sample)) : Prop where
  pairer : m'.pairer = trace.foldl (fun P x => P.onEvent H x.2) m.pairer
  handed : m'.handed = m.handed ++ handedBy H m.pairer trace

variable {H} {m m' m'' : Merger A} {a b : List (Option Nat × Sample)}

theorem HandsOver.refl (m : Merger A) : HandsOver H m m [] := ⟨rfl, (List.append_nil _).symm⟩

theorem HandsOver.trans (h : HandsOver H m m' a) (h' : HandsOver H m' m'' b) : HandsOver H m m'' (a ++ b) where
  pairer := by rw [h'.pairer, h.pairer, List.foldl_append]
  handed := by rw [h'.handed, h.handed, h.pairer, handedBy_append, List.append_assoc]

/-- The values among some slots, as the pairer is handed them. -/
def sharedValues (l : List Sample) : List (Option Nat × Sample) :=
  (l.filter fun s => !s.isStamp).map fun s => (none, s)

theorem sharedValues_append (l r : List Sample) : sharedValues (l ++ r) = sharedValues l ++ sharedValues r := by
  simp [sharedValues]

omit [Accum A] in
/-- The rings' part of the state is untouched. -/
structure RingsKept (m m' : Merger A) : Prop where
  cursor : m'.ringCursor = m.ringCursor
  waitTs : m'.ringWaitTs = m.ringWaitTs
  lost : m'.ringLost = m.ringLost

variable (H) in
/-- From `m` to `m'` the slots `l` were taken from the shared ring. -/
structure Taken (m m' : Merger A) (l : List Sample) : Prop where
  hands : HandsOver H m m' (sharedValues l)
  stage : m'.sharedStage.Perm (m.sharedStage ++ l.filter Sample.isStamp)
  staged : Staged m.sharedStage → Staged m'.sharedStage
  rings : RingsKept m m'

theorem Taken.trans {l r : List Sample} (h : Taken H m m' l) (h' : Taken H m' m'' r) : Taken H m m'' (l ++ r) where
  hands := by rw [sharedValues_append]; exact h.hands.trans h'.hands
  stage := by
    rw [List.filter_append, ← List.append_assoc]
    exact h'.stage.trans (h.stage.append_right _)
  staged := h'.staged ∘ h.staged
  rings := ⟨h'.rings.cursor.trans h.rings.cursor, h'.rings.waitTs.trans h.rings.waitTs,
    h'.rings.lost.trans h.rings.lost⟩

variable (env : World)

theorem takeShared_spec (hrings : env.rings ≠ 0) (m : Merger A) (s : Sample) :
    Taken H m (m.takeShared H env s) [s] ∧ (m.takeShared H env s).time = m.time ∧
      (m.takeShared H env s).cursor = m.cursor ∧ (m.takeShared H env s).taken = m.taken ∧
      (m.takeShared H env s).skipped = m.skipped := by
  unfold Merger.takeShared
  cases hs : s.isStamp with
  | false =>
      rw [if_pos (by simp)]
      refine ⟨⟨⟨?_, ?_⟩, ?_, id, ⟨rfl, rfl, rfl⟩⟩, rfl, rfl, rfl, rfl⟩
      · simp [sharedValues, hs, Merger.onEvent]
      · simp [sharedValues, hs, Merger.onEvent, handedBy]
      · simp [hs, Merger.onEvent]
  | true =>
      rw [if_neg (by simp [hrings])]
      refine ⟨⟨?_, ?_, fun h => h.insert hs, ⟨rfl, rfl, rfl⟩⟩, rfl, rfl, rfl, rfl⟩
      · simp only [sharedValues, List.filter_cons, hs]
        exact ⟨rfl, (List.append_nil _).symm⟩
      · simpa [hs] using stageInsert_perm s m.sharedStage

theorem takeShared_foldl_spec (hrings : env.rings ≠ 0) (l : List Sample) (m : Merger A) :
    Taken H m (l.foldl (Merger.takeShared H env) m) l ∧ (l.foldl (Merger.takeShared H env) m).time = m.time ∧
      (l.foldl (Merger.takeShared H env) m).cursor = m.cursor ∧
      (l.foldl (Merger.takeShared H env) m).taken = m.taken ∧
      (l.foldl (Merger.takeShared H env) m).skipped = m.skipped := by
  induction l generalizing m with
  | nil => exact ⟨⟨.refl m, by simp, id, ⟨rfl, rfl, rfl⟩⟩, rfl, rfl, rfl, rfl⟩
  | cons s l ih =>
      obtain ⟨hone, ht, hc, hk, hs⟩ := takeShared_spec (H := H) env hrings m s
      obtain ⟨hmany, ht', hc', hk', hs'⟩ := ih (m.takeShared H env s)
      exact ⟨hone.trans hmany, ht'.trans ht, hc'.trans hc, hk'.trans hk, hs'.trans hs⟩

theorem logFrom_range' (log : Nat → Sample) (c n : Nat) : (List.range' c n).map log = logFrom log c (c + n) := by
  rw [List.range'_eq_map_range, List.map_map, logFrom, Nat.add_sub_cancel_left]
  rfl

variable (H) in
/-- From `m` to `m'` the next `n` slots of the shared ring were read. -/
structure SlotsRead (m m' : Merger A) (n : Nat) : Prop where
  slots : Taken H m m' (logFrom env.slot m.cursor (m.cursor + n))
  cursor : m'.cursor = m.cursor + n
  taken : m'.taken = m.taken ++ List.range' m.cursor n
  skipped : m'.skipped = m.skipped
  time : m.time ≤ m'.time
  published : ∀ k, m.cursor ≤ k → k < m.cursor + n → env.Published m'.time k

variable {env}

theorem SlotsRead.trans (hsound : env.Sound) {n k : Nat} (h : SlotsRead H env m m' n)
    (h' : SlotsRead H env m' m'' k) : SlotsRead H env m m'' (n + k) where
  slots := by
    have hslots := h'.slots
    rw [h.cursor] at hslots
    have := h.slots.trans hslots
    rwa [logFrom_append (by omega) (by omega), Nat.add_assoc] at this
  cursor := by rw [h'.cursor, h.cursor, Nat.add_assoc]
  taken := by rw [h'.taken, h.taken, h.cursor, List.append_assoc, List.range'_append_1]
  skipped := h'.skipped.trans h.skipped
  time := h.time.trans h'.time
  published j hj hlt := by
    rcases Nat.lt_or_ge j (m.cursor + n) with hn | hn
    · exact hsound.stays _ _ _ h'.time (h.published j hj hn)
    · exact h'.published j (by rw [h.cursor]; exact hn) (by rw [h.cursor]; omega)

variable (env)

theorem readSharedOnce_spec (hsound : env.Sound) (hrings : env.rings ≠ 0) (m : Merger A) :
    SlotsRead H env m (m.readSharedOnce H env).1 (env.read m.time m.cursor) ∧
      ((m.readSharedOnce H env).2 = true ↔ env.Published m.time m.cursor) := by
  have hout := hsound.handsOut m.time m.cursor
  unfold Merger.readSharedOnce
  rw [World.Published]
  simp only
  generalize env.read m.time m.cursor = n at hout ⊢
  split
  · rename_i hn
    subst hn
    refine ⟨⟨?_, rfl, rfl, rfl, Nat.le_succ _, fun k _ _ => by omega⟩, by simp⟩
    rw [logFrom_eq_nil (by omega)]
    exact ⟨⟨rfl, (List.append_nil _).symm⟩, by simp, id, ⟨rfl, rfl, rfl⟩⟩
  · rename_i hn
    obtain ⟨htaken, ht, hc, hk, hs⟩ := takeShared_foldl_spec (H := H) env hrings ((List.range' m.cursor n).map env.slot)
      { m with time := m.time + 1, cursor := m.cursor + n, taken := m.taken ++ List.range' m.cursor n }
    rw [logFrom_range'] at htaken ht hc hk hs ⊢
    refine ⟨⟨⟨⟨htaken.hands.pairer, htaken.hands.handed⟩, htaken.stage, htaken.staged,
      ⟨htaken.rings.cursor, htaken.rings.waitTs, htaken.rings.lost⟩⟩, hc, hk, hs, ?_, fun k hk hlt => ?_⟩,
      by simp; omega⟩
    · rw [ht]
      exact Nat.le_succ _
    · rw [ht]
      have := hout (k - m.cursor) (by omega)
      rw [Nat.add_sub_cancel' hk] at this
      exact hsound.stays _ _ _ (Nat.le_succ _) this

/-- The reads of a pass stop at an unpublished slot, or after `n` of them. -/
theorem readSharedLoop_spec (hsound : env.Sound) (hrings : env.rings ≠ 0) (n : Nat) (m : Merger A) (any : Bool) :
    ∃ k, SlotsRead H env m (Merger.readSharedLoop H env n m any).1 k ∧
      (n ≤ k ∨ ¬env.Published m.time (m.cursor + k)) ∧
      (any = false → (Merger.readSharedLoop H env n m any).2 = false → k = 0) := by
  induction n generalizing m any with
  | zero =>
      refine ⟨0, ⟨?_, rfl, by simp [Merger.readSharedLoop], rfl, Nat.le_refl _, fun k _ _ => by omega⟩,
        Or.inl (Nat.le_refl _), fun _ _ => rfl⟩
      rw [logFrom_eq_nil (by omega)]
      exact ⟨.refl m, by simp [Merger.readSharedLoop], id, ⟨rfl, rfl, rfl⟩⟩
  | succ n ih =>
      obtain ⟨hread, hany⟩ := readSharedOnce_spec (H := H) env hsound hrings m
      rw [Merger.readSharedLoop]
      generalize m.readSharedOnce H env = out at hread hany ⊢
      obtain ⟨m', more⟩ := out
      cases more with
      | false =>
          have hnone : ¬env.Published m.time m.cursor := fun h => by simpa using hany.mpr h
          have hzero : env.read m.time m.cursor = 0 := Nat.eq_zero_of_not_pos hnone
          rw [hzero] at hread
          exact ⟨0, hread, Or.inr hnone, fun _ _ => rfl⟩
      | true =>
          have hpos : 0 < env.read m.time m.cursor := hany.mp rfl
          obtain ⟨k, hk, hend, -⟩ := ih m' true
          refine ⟨_, hread.trans hsound hk, ?_, fun _ hfalse => ?_⟩
          · rcases hend with hend | hend
            · exact Or.inl (by omega)
            · refine Or.inr fun hpub => hend ?_
              rw [hread.cursor, Nat.add_assoc]
              exact hsound.stays _ _ _ hread.time hpub
          · -- once something was read the flag stays up
            have hup : ∀ (n : Nat) (m : Merger A), (Merger.readSharedLoop H env n m true).2 = true := by
              intro n
              induction n with
              | zero => exact fun _ => rfl
              | succ n ih =>
                  intro m
                  rw [Merger.readSharedLoop]
                  generalize m.readSharedOnce H env = out
                  obtain ⟨m', more⟩ := out
                  cases more with
                  | true => exact ih m'
                  | false => rfl
            rw [hup] at hfalse
            cases hfalse

omit [Accum A] in
/-- The watchdog steps over at most the slot at the cursor. -/
theorem checkStall_spec (m : Merger A) :
    RingsKept m (m.checkStall env) ∧ (m.checkStall env).pairer = m.pairer ∧ (m.checkStall env).handed = m.handed ∧
      (m.checkStall env).sharedStage = m.sharedStage ∧ (m.checkStall env).taken = m.taken ∧
      m.time ≤ (m.checkStall env).time ∧
      ((m.checkStall env).cursor = m.cursor ∧ (m.checkStall env).skipped = m.skipped ∨
        (m.checkStall env).cursor = m.cursor + 1 ∧ (m.checkStall env).skipped = m.skipped ++ [m.cursor]) := by
  unfold Merger.checkStall
  simp only
  split
  · exact ⟨⟨rfl, rfl, rfl⟩, rfl, rfl, rfl, rfl, Nat.le_succ _, Or.inl ⟨rfl, rfl⟩⟩
  · split
    · exact ⟨⟨rfl, rfl, rfl⟩, rfl, rfl, rfl, rfl, by simp only; omega, Or.inl ⟨rfl, rfl⟩⟩
    · split
      · exact ⟨⟨rfl, rfl, rfl⟩, rfl, rfl, rfl, rfl, by simp only; omega, Or.inl ⟨rfl, rfl⟩⟩
      · exact ⟨⟨rfl, rfl, rfl⟩, rfl, rfl, rfl, rfl, by simp only [Merger.skipHole]; omega, Or.inr ⟨rfl, rfl⟩⟩

variable (H) in
/-- What reading the shared ring leaves: `n` slots were taken, or one unpublished slot was stepped over. -/
structure SharedRead (m m' : Merger A) (n : Nat) : Prop where
  slots : Taken H m m' (logFrom env.slot m.cursor (m.cursor + n))
  taken : m'.taken = m.taken ++ List.range' m.cursor n
  cursor : m'.cursor = m.cursor + n ∧ m'.skipped = m.skipped ∨
    n = 0 ∧ m'.cursor = m.cursor + 1 ∧ m'.skipped = m.skipped ++ [m.cursor] ∧ ¬env.Published m.time m.cursor
  time : m.time ≤ m'.time
  published : ∀ k, m.cursor ≤ k → k < m.cursor + n → env.Published m'.time k
  complete : ∀ k, m.cursor ≤ k → k < m.cursor + env.queueCapacity →
    (∀ j, m.cursor ≤ j → j ≤ k → env.Published m.time j) → k < m.cursor + n

theorem readShared_spec (hsound : env.Sound) (hrings : env.rings ≠ 0) (m : Merger A) :
    ∃ n, SharedRead H env m (m.readShared H env).1 n := by
  obtain ⟨n, hread, hend, hnone⟩ := readSharedLoop_spec (H := H) env hsound hrings env.queueCapacity m false
  have hcomplete : ∀ k, m.cursor ≤ k → k < m.cursor + env.queueCapacity →
      (∀ j, m.cursor ≤ j → j ≤ k → env.Published m.time j) → k < m.cursor + n := by
    intro k hck hk hpub
    by_contra hnot
    rcases hend with hend | hend
    · omega
    · exact hend (hpub _ (by omega) (by omega))
  refine ⟨n, ?_⟩
  unfold Merger.readShared
  generalize Merger.readSharedLoop H env env.queueCapacity m false = out at hread hnone ⊢
  obtain ⟨m', any⟩ := out
  obtain ⟨⟨⟨hp, hh⟩, hs, hst, ⟨hrc, hrw, hrl⟩⟩, hc, hk, hsk, ht, hpub⟩ := hread
  cases any with
  | true => exact ⟨⟨⟨hp, hh⟩, hs, hst, ⟨hrc, hrw, hrl⟩⟩, hk, Or.inl ⟨hc, hsk⟩, ht, hpub, hcomplete⟩
  | false =>
      obtain rfl := hnone rfl rfl
      obtain ⟨⟨hrc', hrw', hrl'⟩, hp', hh', hs', hk', ht', hcur⟩ := checkStall_spec env m'
      simp only at hp hh hs hst hrc hrw hrl hc hk hsk ht
      refine ⟨⟨⟨hp'.trans hp, hh'.trans hh⟩, by rw [hs']; exact hs, by rw [hs']; exact hst,
        ⟨hrc'.trans hrc, hrw'.trans hrw, hrl'.trans hrl⟩⟩, hk'.trans hk, ?_, ht.trans ht',
        fun k _ _ => by omega, hcomplete⟩
      rw [Nat.add_zero] at hc
      rcases hcur with ⟨hcur, hskip⟩ | ⟨hcur, hskip⟩
      · exact Or.inl ⟨hcur.trans hc, hskip.trans hsk⟩
      · refine Or.inr ⟨rfl, by rw [hcur, hc], by rw [hskip, hsk, hc], ?_⟩
        have hcap := env.two_le_queueCapacity
        rcases hend with hend | hend
        · omega
        · exact hend

/-! ## The rings meanwhile -/

variable (H)

theorem readSharedOnce_rings (m : Merger A) : (m.readSharedOnce H env).1.ringLost = m.ringLost ∧
    (m.readSharedOnce H env).1.reads = m.reads := by
  have hfold : ∀ (l : List Sample) (m : Merger A), (l.foldl (Merger.takeShared H env) m).ringLost = m.ringLost ∧
      (l.foldl (Merger.takeShared H env) m).reads = m.reads := by
    intro l
    induction l with
    | nil => exact fun m => ⟨rfl, rfl⟩
    | cons s l ih =>
        intro m
        obtain ⟨hlost, hreads⟩ := ih (m.takeShared H env s)
        rw [List.foldl_cons, hlost, hreads]
        unfold Merger.takeShared
        split
        · exact ⟨rfl, rfl⟩
        · exact ⟨rfl, rfl⟩
  unfold Merger.readSharedOnce
  simp only
  split
  · exact ⟨rfl, rfl⟩
  · exact hfold _ _

theorem readSharedLoop_rings (n : Nat) (m : Merger A) (any : Bool) :
    (Merger.readSharedLoop H env n m any).1.ringLost = m.ringLost ∧
      (Merger.readSharedLoop H env n m any).1.reads = m.reads := by
  induction n generalizing m any with
  | zero => exact ⟨rfl, rfl⟩
  | succ n ih =>
      obtain ⟨hlost, hreads⟩ := readSharedOnce_rings H env m
      rw [Merger.readSharedLoop]
      generalize m.readSharedOnce H env = out at hlost hreads ⊢
      obtain ⟨m', more⟩ := out
      cases more with
      | false => exact ⟨hlost, hreads⟩
      | true => exact ⟨(ih m' true).1.trans hlost, (ih m' true).2.trans hreads⟩

theorem readShared_rings (m : Merger A) : (m.readShared H env).1.ringLost = m.ringLost ∧
    (m.readShared H env).1.reads = m.reads := by
  obtain ⟨hlost, hreads⟩ := readSharedLoop_rings H env env.queueCapacity m false
  unfold Merger.readShared
  generalize Merger.readSharedLoop H env env.queueCapacity m false = out at hlost hreads ⊢
  obtain ⟨m', any⟩ := out
  cases any with
  | true => exact ⟨hlost, hreads⟩
  | false =>
      have hstall : (m'.checkStall env).ringLost = m'.ringLost ∧ (m'.checkStall env).reads = m'.reads := by
        unfold Merger.checkStall
        simp only
        split
        · exact ⟨rfl, rfl⟩
        · split
          · exact ⟨rfl, rfl⟩
          · split
            · exact ⟨rfl, rfl⟩
            · exact ⟨rfl, rfl⟩
      exact ⟨hstall.1.trans hlost, hstall.2.trans hreads⟩

end Read

end SlickPerfmon
