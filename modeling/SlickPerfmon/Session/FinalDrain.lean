import SlickPerfmon.Session.Collector
import SlickPerfmon.Stats.Accumulator

/-!
# The final drain, slot by slot

The loop of `final_drain` over the indices of the shared ring, where a reservation takes `items_per_slot()` of them.
What producers publish meanwhile, and when, is the adversary's; the queue itself is known by what its `read()` does.
-/

namespace SlickPerfmon

open Library

/-- slick::queue as the collector calls it; the `t`-th thing looked up finds it at time `t`. `read t c` is what it
hands out at the cursor `c` and the cursor it leaves. -/
structure SlickQueue where
  itemsPerSlot : Nat
  read : Nat → Nat → List Sample × Nat
  initialReadingIndex : Nat → Nat

/-- What the collector takes of the queue: reservation `k`, which is published from `published t k` on, occupies the
indices from `k * items_per_slot()`; a read hands out a published run and moves past it, or leaves the cursor. -/
structure SlickQueue.Lawful (q : SlickQueue) (published : Nat → Nat → Prop) (slot : Nat → Sample) : Prop where
  occupies : 0 < q.itemsPerSlot
  hole : ∀ t k, ¬ published t k → q.read t (k * q.itemsPerSlot) = ([], k * q.itemsPerSlot)
  run : ∀ t k, published t k → ∃ n, 0 < n ∧ (∀ i < n, published t (k + i)) ∧
    q.read t (k * q.itemsPerSlot) = ((List.range' k n).map slot, (k + n) * q.itemsPerSlot)

/-- The merge during the drain, its cursor an index. `clocks` only records what the clock read when a slot was stepped
over. -/
structure Draining (A : Type) where
  merger : Merger A
  clocks : List Nat

namespace Draining

section model

variable {A : Type} [Accum A] (H : HeapLib) (env : World) (q : SlickQueue) (d : Draining A)

/-- `taken` records where each slot handed out begins. -/
def readSharedOnce : Draining A × Bool :=
  let c := d.merger.cursor
  let res := q.read d.merger.time c
  let m :=
    { d.merger with
      time := d.merger.time + 1
      cursor := res.2
      taken := d.merger.taken ++ (List.range res.1.length).map fun i => c + i * q.itemsPerSlot }
  if res.1 = [] then (⟨m, d.clocks⟩, false) else (⟨res.1.foldl (Merger.takeShared H env) m, d.clocks⟩, true)

def skipHole (now : Nat) : Draining A :=
  { merger :=
      { d.merger with
        cursor := d.merger.cursor + q.itemsPerSlot
        stalledSlots := d.merger.stalledSlots + 1
        skipped := d.merger.skipped ++ [d.merger.cursor] }
    clocks := d.clocks ++ [now] }

/-- The loop, with at most `rounds` tests of its condition. -/
def loop (target deadline : Nat) : Nat → Draining A → Option (Draining A)
  | 0, _ => none
  | rounds + 1, d =>
      if d.merger.cursor < target then
        match d.readSharedOnce H env q with
        | (d, true) => loop target deadline rounds d
        | (d, false) =>
            if target ≤ d.merger.cursor then some d
            else
              let now := env.now d.merger.time
              let d := { d with merger := { d.merger with time := d.merger.time + 1 } }
              loop target deadline rounds (if now < deadline then d else d.skipHole q now)
      else some d

/-- `final_drain` up to the end of its loop. -/
def finalDrain (m : Merger A) (rounds : Nat) : Option (Draining A) :=
  let target := q.initialReadingIndex m.time
  let deadline := env.now (m.time + 1) + min env.stalledSampleTimeout Merger.kFinalDrainGrace
  loop H env q target deadline rounds ⟨{ m with time := m.time + 2 }, []⟩

end model

/-! ## Accounting for slots -/

section accounts

variable {A : Type} {q : SlickQueue}

/-- From `d` to `d'` the drain went from reservation `a` to `b`, read `tk` and stepped over `sk`. -/
structure Accounts (q : SlickQueue) (deadline a b : Nat) (d d' : Draining A) (tk sk : List Nat) : Prop where
  le : a ≤ b
  start : d.merger.cursor = a * q.itemsPerSlot
  stop : d'.merger.cursor = b * q.itemsPerSlot
  taken : d'.merger.taken = d.merger.taken ++ tk.map (· * q.itemsPerSlot)
  skipped : d'.merger.skipped = d.merger.skipped ++ sk.map (· * q.itemsPerSlot)
  each : (tk ++ sk).Perm (List.range' a (b - a))
  stalled : d'.merger.stalledSlots = d.merger.stalledSlots + sk.length
  clocks : ∃ c, d'.clocks = d.clocks ++ c ∧ c.length = sk.length ∧ ∀ now ∈ c, deadline ≤ now
  time : d.merger.time ≤ d'.merger.time

theorem Accounts.refl (deadline a : Nat) {d : Draining A} (hstart : d.merger.cursor = a * q.itemsPerSlot) :
    Accounts q deadline a a d d [] [] :=
  ⟨Nat.le_refl a, hstart, hstart, by simp, by simp, by simp, rfl, ⟨[], by simp⟩, Nat.le_refl _⟩

theorem Accounts.trans {deadline a b c : Nat} {d d' d'' : Draining A} {tk sk tk' sk' : List Nat}
    (h : Accounts q deadline a b d d' tk sk) (h' : Accounts q deadline b c d' d'' tk' sk') :
    Accounts q deadline a c d d'' (tk ++ tk') (sk ++ sk') where
  le := Nat.le_trans h.le h'.le
  start := h.start
  stop := h'.stop
  taken := by rw [h'.taken, h.taken, List.map_append, List.append_assoc]
  skipped := by rw [h'.skipped, h.skipped, List.map_append, List.append_assoc]
  each := by
    have hle := h.le
    have hle' := h'.le
    have hsplit : List.range' a (c - a) = List.range' a (b - a) ++ List.range' b (c - b) := by
      rw [show c - a = b - a + (c - b) by omega, ← List.range'_append_1, show a + (b - a) = b by omega]
    have hswap : (tk ++ tk' ++ (sk ++ sk')).Perm (tk ++ sk ++ (tk' ++ sk')) := by
      simp only [List.append_assoc]
      exact List.Perm.append_left tk ((List.perm_append_comm_assoc tk' sk sk'))
    rw [hsplit]
    exact hswap.trans (h.each.append h'.each)
  stalled := by rw [h'.stalled, h.stalled, List.length_append, Nat.add_assoc]
  clocks := by
    obtain ⟨c, hc, hlen, hlate⟩ := h.clocks
    obtain ⟨c', hc', hlen', hlate'⟩ := h'.clocks
    refine ⟨c ++ c', by rw [hc', hc, List.append_assoc], by rw [List.length_append, List.length_append, hlen, hlen'], ?_⟩
    intro now hnow
    rcases List.mem_append.mp hnow with hnow | hnow
    · exact hlate now hnow
    · exact hlate' now hnow
  time := Nat.le_trans h.time h'.time

end accounts

/-! ## What one round does -/

section round

variable {A : Type} [Accum A] (H : HeapLib) (env : World) {q : SlickQueue}

theorem takeShared_keeps (m : Merger A) (s : Sample) :
    (m.takeShared H env s).time = m.time ∧ (m.takeShared H env s).cursor = m.cursor ∧
      (m.takeShared H env s).taken = m.taken ∧ (m.takeShared H env s).skipped = m.skipped ∧
      (m.takeShared H env s).stalledSlots = m.stalledSlots := by
  unfold Merger.takeShared
  split
  · exact ⟨rfl, rfl, rfl, rfl, rfl⟩
  · exact ⟨rfl, rfl, rfl, rfl, rfl⟩

theorem foldl_takeShared_keeps (l : List Sample) (m : Merger A) :
    (l.foldl (Merger.takeShared H env) m).time = m.time ∧ (l.foldl (Merger.takeShared H env) m).cursor = m.cursor ∧
      (l.foldl (Merger.takeShared H env) m).taken = m.taken ∧
      (l.foldl (Merger.takeShared H env) m).skipped = m.skipped ∧
      (l.foldl (Merger.takeShared H env) m).stalledSlots = m.stalledSlots := by
  induction l generalizing m with
  | nil => exact ⟨rfl, rfl, rfl, rfl, rfl⟩
  | cons s l ih =>
      obtain ⟨htime, hcursor, htaken, hskipped, hstalled⟩ := ih (m.takeShared H env s)
      obtain ⟨htime', hcursor', htaken', hskipped', hstalled'⟩ := takeShared_keeps H env m s
      rw [List.foldl_cons]
      exact ⟨htime.trans htime', hcursor.trans hcursor', htaken.trans htaken', hskipped.trans hskipped',
        hstalled.trans hstalled'⟩

variable {published : Nat → Nat → Prop} {slot : Nat → Sample} {target k : Nat} (deadline : Nat) {d : Draining A}

variable (hq : q.Lawful published slot) (hcur : d.merger.cursor = k * q.itemsPerSlot)
  (hlt : d.merger.cursor < target)

include hq hcur hlt

/-- A published run is read, and the cursor is past it. -/
theorem round_read (hpub : published d.merger.time k) : ∃ n d', 0 < n ∧
    (∀ rounds, loop H env q target deadline (rounds + 1) d = loop H env q target deadline rounds d') ∧
      Accounts q deadline k (k + n) d d' (List.range' k n) [] ∧ d'.merger.time = d.merger.time + 1 := by
  obtain ⟨n, hn, -, hread⟩ := hq.run _ _ hpub
  rw [← hcur] at hread
  have hsome : (List.range' k n).map slot ≠ [] := by
    rw [Ne, List.map_eq_nil_iff, List.range'_eq_nil_iff]
    omega
  refine ⟨n, (d.readSharedOnce H env q).1, hn, fun rounds => ?_, ?_⟩
  · have htrue : (d.readSharedOnce H env q).2 = true := by
      rw [readSharedOnce, hread]
      simp only [if_neg hsome]
    rw [loop, if_pos hlt]
    split
    · rename_i heq
      rw [heq]
    · rename_i heq
      rw [heq] at htrue
      exact absurd htrue Bool.false_ne_true
  · have htaken : (List.range n).map (fun i => d.merger.cursor + i * q.itemsPerSlot) =
        (List.range' k n).map (· * q.itemsPerSlot) := by
      rw [List.range'_eq_map_range, List.map_map]
      refine List.map_congr_left fun i _ => ?_
      rw [hcur, Function.comp_apply, Nat.add_mul]
    rw [readSharedOnce, hread]
    simp only [if_neg hsome]
    obtain ⟨htime, hcursor, htk, hsk, hstalled⟩ := foldl_takeShared_keeps H env
      ((List.range' k n).map slot)
      { d.merger with
        time := d.merger.time + 1
        cursor := (k + n) * q.itemsPerSlot
        taken := d.merger.taken ++ (List.range ((List.range' k n).map slot).length).map fun i =>
          d.merger.cursor + i * q.itemsPerSlot }
    rw [List.length_map, List.length_range', htaken] at *
    refine ⟨⟨Nat.le_add_right k n, hcur, hcursor, htk, by simpa using hsk, ?_, by simpa using hstalled, ⟨[], by simp⟩,
      by rw [htime]; exact Nat.le_succ _⟩, htime⟩
    rw [List.append_nil, Nat.add_sub_cancel_left]

/-- At a hole the drain waits until the grace period is over, and steps over it after. -/
theorem round_hole (hhole : ¬ published d.merger.time k) : ∃ d',
    (∀ rounds, loop H env q target deadline (rounds + 1) d = loop H env q target deadline rounds d') ∧
      d'.merger.time = d.merger.time + 2 ∧
      (env.now (d.merger.time + 1) < deadline ∧ Accounts q deadline k k d d' [] [] ∨
        Accounts q deadline k (k + 1) d d' [] [k]) := by
  have hread := hq.hole _ _ hhole
  rw [← hcur] at hread
  let waited : Draining A :=
    ⟨{ d.merger with time := d.merger.time + 2, taken := d.merger.taken ++ [] }, d.clocks⟩
  have hwaited : Accounts q deadline k k d waited [] [] :=
    ⟨Nat.le_refl k, hcur, hcur, rfl, by simp [waited], by simp, rfl, ⟨[], by simp [waited]⟩, Nat.le_add_right _ 2⟩
  have hloop : ∀ rounds, loop H env q target deadline (rounds + 1) d = loop H env q target deadline rounds
      (if env.now (d.merger.time + 1) < deadline then waited
        else waited.skipHole q (env.now (d.merger.time + 1))) := by
    intro rounds
    rw [loop, if_pos hlt, readSharedOnce, hread]
    simp only [if_true, if_neg (Nat.not_le.mpr hlt)]
    rfl
  by_cases hearly : env.now (d.merger.time + 1) < deadline
  · simp only [if_pos hearly] at hloop
    exact ⟨waited, hloop, rfl, Or.inl ⟨hearly, hwaited⟩⟩
  · simp only [if_neg hearly] at hloop
    refine ⟨_, hloop, rfl, Or.inr ?_⟩
    rw [not_lt] at hearly
    constructor
    · exact Nat.le_succ k
    · exact hcur
    · change waited.merger.cursor + q.itemsPerSlot = _
      rw [hwaited.stop, Nat.add_one_mul]
    · exact hwaited.taken
    · change waited.merger.skipped ++ [waited.merger.cursor] = _
      rw [hwaited.stop]
      rfl
    · simp
    · rfl
    · exact ⟨[_], rfl, rfl, by simpa using hearly⟩
    · exact hwaited.time

end round

/-! ## The whole drain -/

section run

variable {A : Type} [Accum A] (H : HeapLib) (env : World) {q : SlickQueue} {published : Nat → Nat → Prop}
  {slot : Nat → Sample} {deadline late : Nat}

/-- Each round moves the cursor, or time towards the end of the grace period. -/
theorem loop_accounts (hq : q.Lawful published slot) (hlate : ∀ t, late ≤ t → deadline ≤ env.now t)
    (target n : Nat) :
    ∀ {d : Draining A} {a : Nat}, d.merger.cursor = a * q.itemsPerSlot →
      late - d.merger.time + (target - d.merger.cursor) ≤ n →
      ∃ d' b tk sk, (∀ rounds, n < rounds → loop H env q target deadline rounds d = some d') ∧
        Accounts q deadline a b d d' tk sk ∧ target ≤ d'.merger.cursor ∧ ∀ k ∈ sk, k * q.itemsPerSlot < target := by
  induction n with
  | zero =>
      intro d a hcur hn
      refine ⟨d, a, [], [], fun rounds hrounds => ?_, .refl deadline a hcur, by omega, by simp⟩
      obtain ⟨r, rfl⟩ : ∃ r, rounds = r + 1 := ⟨rounds - 1, by omega⟩
      rw [loop, if_neg (by omega)]
  | succ n ih =>
      intro d a hcur hn
      by_cases hlt : d.merger.cursor < target
      · have hround : ∃ d' b tk sk, (∀ rounds, loop H env q target deadline (rounds + 1) d =
            loop H env q target deadline rounds d') ∧ Accounts q deadline a b d d' tk sk ∧
            late - d'.merger.time + (target - d'.merger.cursor) ≤ n ∧ ∀ k ∈ sk, k * q.itemsPerSlot < target := by
          have hpos := hq.occupies
          by_cases hpub : published d.merger.time a
          · obtain ⟨m, d', hm, hloop, hacc, htime⟩ :=
              round_read H env deadline hq hcur hlt hpub
            refine ⟨d', _, _, _, hloop, hacc, ?_, by simp⟩
            have hstop := hacc.stop
            have hmul : 1 * 1 ≤ m * q.itemsPerSlot := Nat.mul_le_mul hm hpos
            rw [Nat.add_mul] at hstop
            omega
          · obtain ⟨d', hloop, htime, hout⟩ := round_hole H env deadline hq hcur hlt hpub
            rcases hout with ⟨hearly, hacc⟩ | hacc
            · refine ⟨d', _, _, _, hloop, hacc, ?_, by simp⟩
              have hstop := hacc.stop
              have hbefore : d.merger.time + 1 < late := by
                by_contra hge
                have := hlate (d.merger.time + 1) (by omega)
                omega
              omega
            · refine ⟨d', _, _, _, hloop, hacc, ?_, by simpa using hcur ▸ hlt⟩
              have hstop := hacc.stop
              rw [Nat.add_one_mul] at hstop
              omega
        obtain ⟨d₁, b, tk, sk, hloop, hacc, hless, hbelow⟩ := hround
        obtain ⟨d', c, tk', sk', hrest, hacc', hend, hbelow'⟩ := ih hacc.stop hless
        refine ⟨d', c, tk ++ tk', sk ++ sk', fun rounds hrounds => ?_, hacc.trans hacc', hend, ?_⟩
        · obtain ⟨r, rfl⟩ : ∃ r, rounds = r + 1 := ⟨rounds - 1, by omega⟩
          rw [hloop, hrest r (by omega)]
        · intro k hk
          rcases List.mem_append.mp hk with hk | hk
          · exact hbelow k hk
          · exact hbelow' k hk
      · refine ⟨d, a, [], [], fun rounds hrounds => ?_, .refl deadline a hcur, by omega, by simp⟩
        obtain ⟨r, rfl⟩ : ∃ r, rounds = r + 1 := ⟨rounds - 1, by omega⟩
        rw [loop, if_neg hlt]

/-- The final drain ends at or past what was reserved when it began. Each slot below that is read once or stepped over
once, and counted then; nothing is stepped over before the grace period is over. -/
theorem finalDrain_accounts (hq : q.Lawful published slot) {m : Merger A} (hcur : q.itemsPerSlot ∣ m.cursor)
    (hlate : ∃ late, ∀ t, late ≤ t →
      env.now (m.time + 1) + min env.stalledSampleTimeout Merger.kFinalDrainGrace ≤ env.now t) :
    ∃ enough d tk sk, (∀ rounds, enough ≤ rounds → finalDrain H env q m rounds = some d) ∧
      q.initialReadingIndex m.time ≤ d.merger.cursor ∧
      d.merger.taken = m.taken ++ tk ∧ d.merger.skipped = m.skipped ++ sk ∧
      (∀ k, m.cursor ≤ k * q.itemsPerSlot → k * q.itemsPerSlot < q.initialReadingIndex m.time →
        (tk ++ sk).count (k * q.itemsPerSlot) = 1) ∧
      d.merger.stalledSlots = m.stalledSlots + sk.length ∧ (∀ i ∈ sk, i < q.initialReadingIndex m.time) ∧
      d.clocks.length = sk.length ∧
      ∀ now ∈ d.clocks, env.now (m.time + 1) + min env.stalledSampleTimeout Merger.kFinalDrainGrace ≤ now := by
  obtain ⟨late, hlate⟩ := hlate
  obtain ⟨a, ha⟩ := hcur
  rw [Nat.mul_comm] at ha
  have hpos := hq.occupies
  obtain ⟨d, b, tk, sk, hrun, hacc, hend, hbelow⟩ := loop_accounts H env hq hlate
    (q.initialReadingIndex m.time) (late - (m.time + 2) + (q.initialReadingIndex m.time - m.cursor))
    (show (⟨{ m with time := m.time + 2 }, []⟩ : Draining A).merger.cursor = a * q.itemsPerSlot from ha) (Nat.le_refl _)
  obtain ⟨c, hc, hlen, hclocks⟩ := hacc.clocks
  rw [List.nil_append] at hc
  refine ⟨_, d, tk.map (· * q.itemsPerSlot), sk.map (· * q.itemsPerSlot), fun rounds hrounds => hrun rounds hrounds,
    hend, hacc.taken, hacc.skipped, fun k hk hkt => ?_, by rw [List.length_map]; exact hacc.stalled, ?_, ?_, ?_⟩
  · have hinj : Function.Injective fun i => i * q.itemsPerSlot := fun i j hij => Nat.eq_of_mul_eq_mul_right hpos hij
    have hstop := hacc.stop
    have hak : a ≤ k := by
      rw [ha] at hk
      exact Nat.le_of_mul_le_mul_right hk hpos
    have hkb : k < b := by
      refine Nat.lt_of_mul_lt_mul_right (a := q.itemsPerSlot) ?_
      omega
    rw [← List.map_append, List.count_map_of_injective _ _ hinj, hacc.each.count_eq, List.count_eq_one_of_mem]
    · exact List.nodup_range'
    · rw [List.mem_range'_1]
      omega
  · intro i hi
    obtain ⟨k, hk, rfl⟩ := List.mem_map.mp hi
    exact hbelow k hk
  · rw [hc, hlen, List.length_map]
  · rw [hc]
    exact hclocks

/-- Two indices a slot; slot 1 is never published, and the others always were. -/
def oneHole : SlickQueue where
  itemsPerSlot := 2
  read _ c := if c % 2 = 0 ∧ c ≠ 2 then ([⟨7, 5, makeEvent kEndStep 3⟩], c + 2) else ([], c)
  initialReadingIndex _ := 6

/-- A clock of one millisecond for each look, and nothing else. -/
def slowClock : World where
  rings := 0
  mask := 0
  log _ _ := default
  head _ _ := 0
  slot _ := default
  read _ _ := 0
  reserved _ := 0
  now t := 1000000 * t
  queueCapacity := 64
  stalledSampleTimeout := 5000000
  two_le_queueCapacity := by decide

theorem oneHole_lawful : oneHole.Lawful (fun _ k => k ≠ 1) (fun _ => ⟨7, 5, makeEvent kEndStep 3⟩) where
  occupies := by decide
  hole t k hk := by
    rw [not_not] at hk
    rw [hk]
    rfl
  run t k hk := by
    refine ⟨1, Nat.one_pos, fun i hi => ?_, ?_⟩
    · rw [Nat.lt_one_iff.mp hi]
      exact hk
    · have hslot : k * 2 % 2 = 0 ∧ k * 2 ≠ 2 := by omega
      change (if k * 2 % 2 = 0 ∧ k * 2 ≠ 2 then _ else _) = _
      rw [if_pos hslot, Nat.add_mul]
      rfl

theorem finalDrain_accounts_oneHole : ∃ enough d,
    (∀ rounds, enough ≤ rounds → finalDrain sortingLib slowClock oneHole
      (Collector.fresh : Collector (Accumulator 4) Unit).merger rounds = some d) ∧
    6 ≤ d.merger.cursor ∧ (d.merger.taken ++ d.merger.skipped).count 0 = 1 ∧
    (d.merger.taken ++ d.merger.skipped).count 2 = 1 ∧ (d.merger.taken ++ d.merger.skipped).count 4 = 1 := by
  obtain ⟨enough, d, tk, sk, hrun, hend, htk, hsk, heach, -⟩ := finalDrain_accounts sortingLib slowClock
    oneHole_lawful (m := (Collector.fresh : Collector (Accumulator 4) Unit).merger)
    (Nat.dvd_zero 2) ⟨6, fun t ht => Nat.mul_le_mul_left 1000000 ht⟩
  have htaken : d.merger.taken = tk := htk.trans (List.nil_append tk)
  have hskipped : d.merger.skipped = sk := hsk.trans (List.nil_append sk)
  refine ⟨enough, d, hrun, hend, ?_⟩
  rw [htaken, hskipped]
  exact ⟨heach 0 (Nat.zero_le _) (by decide), heach 1 (by decide) (by decide),
    heach 2 (by decide) (by decide)⟩

end run

/-! ## The drain of the Collector

Its cursor counts reservations; multiplied by `items_per_slot()` it is the cursor here.
-/

section reservations

variable {A : Type} [Accum A] (H : HeapLib) (env : World) (q : SlickQueue) (slot : Nat → Sample)

/-- The queue as the merge has it, one reservation at a time. -/
def counted : World :=
  { env with
    slot := slot
    read := fun t k => (q.read t (k * q.itemsPerSlot)).1.length
    reserved := fun t => q.initialReadingIndex t / q.itemsPerSlot }

/-- The reservations of a merge as the indices they begin at. -/
def indexed (m : Merger A) : Merger A :=
  { m with
    cursor := m.cursor * q.itemsPerSlot
    taken := m.taken.map (· * q.itemsPerSlot)
    skipped := m.skipped.map (· * q.itemsPerSlot) }

theorem indexed_takeShared (m : Merger A) (s : Sample) :
    (indexed q m).takeShared H env s = indexed q (m.takeShared H (counted env q slot) s) := by
  by_cases hnow : (!s.isStamp || decide (env.rings = 0)) = true
  · have hcounted : (!s.isStamp || decide ((counted env q slot).rings = 0)) = true := hnow
    rw [Merger.takeShared, if_pos hnow, Merger.takeShared, if_pos hcounted]
    rfl
  · have hcounted : ¬ (!s.isStamp || decide ((counted env q slot).rings = 0)) = true := hnow
    rw [Merger.takeShared, if_neg hnow, Merger.takeShared, if_neg hcounted]
    rfl

theorem indexed_foldl (l : List Sample) (m : Merger A) :
    l.foldl (Merger.takeShared H env) (indexed q m) =
      indexed q (l.foldl (Merger.takeShared H (counted env q slot)) m) := by
  induction l generalizing m with
  | nil => rfl
  | cons s l ih => rw [List.foldl_cons, List.foldl_cons, indexed_takeShared, ih]

variable {q slot} {published : Nat → Nat → Prop} (hq : q.Lawful published slot)

include hq

theorem indexed_readSharedOnce (m : Merger A) (clocks : List Nat) :
    readSharedOnce H env q ⟨indexed q m, clocks⟩ =
      (⟨indexed q (m.readSharedOnce H (counted env q slot)).1, clocks⟩,
        (m.readSharedOnce H (counted env q slot)).2) := by
  by_cases hpub : published m.time m.cursor
  · obtain ⟨n, hn, -, hread⟩ := hq.run _ _ hpub
    have hsome : (List.range' m.cursor n).map slot ≠ [] := by
      rw [Ne, List.map_eq_nil_iff, List.range'_eq_nil_iff]
      omega
    have htaken : (List.range n).map (fun i => m.cursor * q.itemsPerSlot + i * q.itemsPerSlot) =
        (List.range' m.cursor n).map (· * q.itemsPerSlot) := by
      rw [List.range'_eq_map_range, List.map_map]
      exact List.map_congr_left fun i _ => (Nat.add_mul _ _ _).symm
    rw [readSharedOnce, Merger.readSharedOnce]
    simp only [indexed, counted, hread, if_neg hsome, List.length_map, List.length_range', if_neg (Nat.ne_of_gt hn)]
    rw [htaken, ← List.map_append]
    congr 2
    exact indexed_foldl H env q slot _
      { m with time := m.time + 1, cursor := m.cursor + n, taken := m.taken ++ List.range' m.cursor n }
  · have hread := hq.hole _ _ hpub
    rw [readSharedOnce, Merger.readSharedOnce]
    simp only [indexed, counted, hread, List.length_nil, if_true]
    simp

/-- The loop here and the Collector's go together. -/
theorem indexed_loop (target deadline rounds : Nat) (m : Merger A) (clocks : List Nat) :
    (loop H env q (target * q.itemsPerSlot) deadline rounds ⟨indexed q m, clocks⟩).map (·.merger) =
      (Merger.finalDrainLoop H (counted env q slot) target deadline rounds m).map (indexed q) := by
  have hlt : ∀ c, c * q.itemsPerSlot < target * q.itemsPerSlot ↔ c < target := fun c =>
    Nat.mul_lt_mul_right hq.occupies
  induction rounds generalizing m clocks with
  | zero => rfl
  | succ rounds ih =>
      rw [loop, Merger.finalDrainLoop, indexed_readSharedOnce H env hq]
      change Option.map _ (if m.cursor * q.itemsPerSlot < target * q.itemsPerSlot then _ else _) = _
      by_cases hbelow : m.cursor < target
      · rw [if_pos ((hlt _).mpr hbelow), if_pos hbelow]
        cases hread : m.readSharedOnce H (counted env q slot) with
        | mk m' some =>
            cases some with
            | true => exact ih m' clocks
            | false =>
                by_cases hend : target ≤ m'.cursor
                · have hindex : target * q.itemsPerSlot ≤ (indexed q m').cursor := Nat.mul_le_mul_right _ hend
                  simp only [if_pos hend, if_pos hindex]
                  rfl
                · have hindex : ¬ target * q.itemsPerSlot ≤ (indexed q m').cursor := by
                    rw [Nat.not_le]
                    exact (hlt _).mpr (Nat.lt_of_not_le hend)
                  simp only [if_neg hend, if_neg hindex]
                  by_cases hearly : env.now m'.time < deadline
                  · have hcounted : (counted env q slot).now m'.time < deadline := hearly
                    have hindexed : env.now (indexed q m').time < deadline := hearly
                    simp only [if_pos hcounted, if_pos hindexed]
                    exact ih { m' with time := m'.time + 1 } clocks
                  · have hcounted : ¬ (counted env q slot).now m'.time < deadline := hearly
                    have hindexed : ¬ env.now (indexed q m').time < deadline := hearly
                    simp only [if_neg hcounted, if_neg hindexed]
                    rw [← ih _ (clocks ++ [env.now m'.time])]
                    simp only [skipHole, indexed, Merger.skipHole, List.map_append, Nat.add_one_mul]
                    rfl
      · rw [if_neg (fun h => hbelow ((hlt _).mp h)), if_neg hbelow]
        rfl

end reservations

end Draining

end SlickPerfmon
