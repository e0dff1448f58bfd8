import SlickPerfmon.Ring.Lemmas.TableAside
import SlickPerfmon.Ring.Interleaving
import SlickPerfmon.Ring.Ownership

/-!
# The invariant of the hot path

Ring by ring the table is a ring with one writer and one reader: with its writer idle it keeps the ring's own
invariant, and the one live thread bound to it through a running session is its writer.
-/

namespace SlickPerfmon

open Library

variable {Thread Session Module Process : Type} {d : Deployment Thread Session Module Process} {count mask : Nat}
  {self : UInt32}

/-! ## Rings -/

theorem RingInv.setWriter {s : RingState} (h : RingInv mask s) {w : WriterPc}
    (hw : WriterHolds mask { s with writer := w }) : RingInv mask { s with writer := w } where
  next := h.next
  head := h.head
  slots := h.slots
  writer := hw
  reader := h.reader.frame rfl rfl rfl rfl rfl rfl rfl
  bound := h.bound
  ledger := h.ledger

/-- The collector takes up a ring anew, from its head. -/
theorem RingInv.anchor {s : RingState} (h : RingInv mask s) (hr : s.reader = .idle) :
    RingInv mask
      { s with cursor := s.head, lost := 0, initial := s.head, consumed := 0, callCursor := s.head, callLost := 0 } where
  next := h.next
  head := h.head
  slots := h.slots
  writer := h.writer
  reader := by simp only [ReaderHolds, hr]
  bound := Nat.le_refl _
  ledger := rfl

/-- Between reads the call's own figures count for nothing. -/
theorem RingInv.recall {s : RingState} (h : RingInv mask s) (hr : s.reader = .idle) (c l : Nat) :
    RingInv mask { s with callCursor := c, callLost := l } where
  next := h.next
  head := h.head
  slots := h.slots
  writer := h.writer
  reader := by simp only [ReaderHolds, hr]
  bound := h.bound
  ledger := h.ledger

/-- A store into the slot touches only the slot. -/
theorem RingState.storeNext_slot {s s' : RingState} (hw : ∀ x, s.writer ≠ .head x)
    (hs : s.storeNext mask = some s') : s' = { s with slots := s'.slots, writer := s'.writer } := by
  unfold RingState.storeNext at hs
  cases hpc : s.writer with
  | idle => rw [hpc] at hs; cases hs
  | timestamp x => rw [hpc] at hs; cases hs; rfl
  | point x => rw [hpc] at hs; cases hs; rfl
  | event x => rw [hpc] at hs; cases hs; rfl
  | head x => exact absurd hpc (hw x)

/-- The sample a writer is publishing. -/
def WriterPc.sample : WriterPc → Option Sample
  | .idle => none
  | .timestamp x | .point x | .event x | .head x => some x

theorem RingState.storeNext_sample {s s' : RingState} (hw : ∀ x, s.writer ≠ .head x)
    (hs : s.storeNext mask = some s') : s'.writer.sample = s.writer.sample := by
  unfold RingState.storeNext at hs
  cases hpc : s.writer with
  | idle => rw [hpc] at hs; cases hs
  | timestamp x => rw [hpc] at hs; cases hs; rfl
  | point x => rw [hpc] at hs; cases hs; rfl
  | event x => rw [hpc] at hs; cases hs; rfl
  | head x => exact absurd hpc (hw x)

/-- A load that leaves the reader copying moves nothing but the reader. -/
theorem RingState.loadNext_copying {s s' : RingState} {c : Copy} (hs : s.loadNext mask = some s')
    (hc : s'.reader = .copying c) :
    s' = { s with reader := .copying c } ∧ ∃ c₀, s.reader = .copying c₀ ∧ c.h = c₀.h ∧ c.maxN = c₀.maxN := by
  unfold RingState.loadNext at hs
  cases hpc : s.reader with
  | idle => rw [hpc] at hs; cases hs
  | returned batch => rw [hpc] at hs; cases hs
  | copying c₀ =>
      simp only [hpc] at hs
      split at hs
      · cases hl : c₀.loaded with
        | none =>
            rw [hl] at hs
            cases hs
            cases hc
            exact ⟨rfl, c₀, rfl, rfl, rfl⟩
        | timestamp ts =>
            rw [hl] at hs
            cases hs
            cases hc
            exact ⟨rfl, c₀, rfl, rfl, rfl⟩
        | point ts p =>
            rw [hl] at hs
            cases hs
            cases hc
            exact ⟨rfl, c₀, rfl, rfl, rfl⟩
      · cases hs
        cases hc

/-- The samples of a batch, each with its index. -/
theorem mem_zip_range' {first n : Nat} {batch : List Sample} {y : Nat × Sample}
    (hy : y ∈ (List.range' first n).zip batch) : ∃ j, j < n ∧ y.1 = first + j ∧ batch[j]? = some y.2 := by
  obtain ⟨j, hj, rfl⟩ := List.mem_iff_getElem.mp hy
  have hlen : j < n ∧ j < batch.length := by simpa using hj
  refine ⟨j, hlen.1, by simp, ?_⟩
  rw [List.getElem_zip, List.getElem?_eq_getElem hlen.2]

/-! ## The invariant -/

variable [DecidableEq Thread]

structure PathInv (d : Deployment Thread Session Module Process) (mask : Nat)
    (st : PathState Thread Session Module Process) : Prop where
  table : TableInv d st.table
  rings : ∀ r, RingInv mask (st.ring r .idle)
  writers : ∀ t s r, st.table.LiveThread d t → st.table.Serves s r → (st.table.threads t).pc = .publish s →
    (st.table.threads t).ring = some r → WriterHolds mask (st.ring r (st.writing t))
  calls : ∀ t, (st.calls t).isSome = (st.table.threads t).pc.stamping
  payload : ∀ t c v, st.calls t = some c → c.call.payload = some v → c.payload = some v
  writing : ∀ t x, (st.writing t).sample = some x →
    (st.table.threads t).pc.publishes = true ∧ ∃ c, st.calls t = some c ∧ c.sample = some x
  copying : ∀ r h m, st.table.collector = .read r h m → ∃ c, st.copying = some c ∧ c.h = h ∧ c.maxN = m
  accepted : ∀ t, st.accepted t =
    (st.history.filter fun x => x.thread = t).map HotRecord.call ++ ((st.calls t).map Calling.call).toList
  faithful : ∀ x ∈ st.history, x.sample.point = x.call.point ∧ x.sample.event = x.call.event ∧
    ∀ v, x.call.payload = some v → x.sample.timestamp = v
  taken : ∀ r, (st.taken r).Pairwise (fun y z => y.1 < z.1) ∧
    ∀ y ∈ st.taken r, st.initial r ≤ y.1 ∧ y.1 < st.table.cursor r ∧ (st.published r)[y.1]? = some y.2

omit [DecidableEq Thread] in
/-- One ring, one live writer. -/
theorem TableInv.only_writer {st : TableState Thread Session Module Process} (h : TableInv d st) {t t' : Thread}
    {s s' : Session} {r : Nat} (ht : st.LiveThread d t) (ht' : st.LiveThread d t') (hs : st.Serves s r)
    (hs' : st.Serves s' r) (hb : (st.threads t).Bound d s r) (hb' : (st.threads t').Bound d s' r) : t = t' := by
  have hw := h.holds t s r ht hs (.inr hb)
  have hw' := h.holds t' s' r ht' hs' (.inr hb')
  have he : s' = s := d.owner_inj (hw'.symm.trans hw)
  rw [he] at hb'
  exact h.sole t t' s r ht ht' hs (.inr hb) (.inr hb')

namespace PathState

variable {st st' : PathState Thread Session Module Process}

omit [DecidableEq Thread] in
/-- A ring looks the same where its words, its log and the collector's place in it are. -/
theorem ring_congr {r : Nat} (w : WriterPc) (hslots : st'.slots r = st.slots r)
    (hhead : st'.table.head r = st.table.head r) (hreader : st'.reader r = st.reader r)
    (hcursor : st'.table.cursor r = st.table.cursor r) (hlost : st'.lost r = st.lost r)
    (hpublished : st'.published r = st.published r) (hinitial : st'.initial r = st.initial r)
    (htaken : st'.taken r = st.taken r) : st'.ring r w = st.ring r w := by
  simp only [ring, hslots, hhead, hreader, hcursor, hlost, hpublished, hinitial, htaken]

omit [DecidableEq Thread] in
theorem reader_congr (hreading : ∀ r h m, st'.table.collector = .read r h m ↔ st.table.collector = .read r h m)
    (hcopying : st'.copying = st.copying) (r : Nat) : st'.reader r = st.reader r := by
  have hidle : ∀ st₁ : PathState Thread Session Module Process, (∀ r h m, st₁.table.collector ≠ .read r h m) →
      st₁.reader r = .idle := by
    intro st₁ h₁
    unfold reader
    split
    · exact absurd ‹_› (h₁ _ _ _)
    · rfl
  by_cases h : ∃ r' hd m, st.table.collector = .read r' hd m
  · obtain ⟨r', hd, m, h⟩ := h
    have h' := (hreading r' hd m).mpr h
    unfold reader
    rw [h, h', hcopying]
  · rw [hidle st fun r' hd m he => h ⟨r', hd, m, he⟩,
      hidle st' fun r' hd m he => h ⟨r', hd, m, (hreading r' hd m).mp he⟩]

end PathState

omit [DecidableEq Thread] in
theorem TableState.LiveThread.of_publish {table : TableState Thread Session Module Process} {t : Thread} {s : Session}
    (hal : table.Alive d (d.threadHome t)) (hpc : (table.threads t).pc = .publish s) : table.LiveThread d t :=
  ⟨hal, by rw [hpc]; simp⟩

omit [DecidableEq Thread] in
/-- A thread about to publish, alive in a session that serves the ring after the step, was so before it. -/
theorem PublishersKept.back {table table' : TableState Thread Session Module Process} (hinv : TableInv d table)
    (hkept : PublishersKept d table table') {t : Thread} {s : Session} {r : Nat} (hp : (table.threads t).pc.publishes = true)
    (hlive : table'.LiveThread d t) (hserves : table'.Serves s r) (hpc : (table'.threads t).pc = .publish s) :
    table'.threads t = table.threads t ∧ table.LiveThread d t ∧ table.Serves s r := by
  obtain ⟨s', hpc'⟩ := ThreadPc.publishes_iff.mp hp
  have hsame := hkept.publishing t s' hpc'
  rw [hsame] at hpc
  have hid : (table.threads t).sessionId = d.id s := by
    have := hinv.pc t
    rwa [ThreadState.PcHolds, hpc] at this
  obtain ⟨hstart, hhome⟩ := hinv.known t s (.inl hid)
  have hborn := hinv.started s hstart
  rw [hhome] at hborn
  exact ⟨hsame, .of_publish (hkept.alive _ hborn hlive.1) hpc, hkept.serving s r hstart hserves⟩

namespace PathInv

variable {st : PathState Thread Session Module Process} (h : PathInv d mask st)
include h

/-- A thread that does not publish has no store under way. -/
theorem writing_idle {t : Thread} (ht : (st.table.threads t).pc.publishes = false) : st.writing t = .idle := by
  cases hw : st.writing t with
  | idle => rfl
  | _ x =>
      have := (h.writing t x (by rw [hw]; rfl)).1
      rw [ht] at this
      cases this

/-- A step beside the hot path, and the calls as they stand after it. -/
theorem aside {table : TableState Thread Session Module Process} (calls : Thread → Option Calling)
    (accepted : Thread → List HotCall) (htable : TableInv d table) (haside : TableAside d st.table table)
    (hcalls : ∀ t, (calls t).isSome = (table.threads t).pc.stamping)
    (hkeep : ∀ t, calls t = st.calls t ∨ (st.table.threads t).pc.publishes = false)
    (hpayload : ∀ t c v, calls t = some c → c.call.payload = some v → c.payload = some v)
    (haccepted : ∀ t, accepted t =
      (st.history.filter fun x => x.thread = t).map HotRecord.call ++ ((calls t).map Calling.call).toList) :
    PathInv d mask { st with table := table, calls := calls, accepted := accepted } := by
  set st' : PathState Thread Session Module Process :=
    { st with table := table, calls := calls, accepted := accepted } with hst'
  have hreader : ∀ r, st'.reader r = st.reader r := PathState.reader_congr haside.reading rfl
  have hring : ∀ r w, st'.ring r w = st.ring r w := fun r w =>
    PathState.ring_congr w rfl (congrFun haside.head r) (hreader r) (congrFun haside.cursor r) rfl rfl rfl rfl
  exact
    { table := htable
      rings := fun r => by rw [hring]; exact h.rings r
      writers := by
        intro t s r ht hs hpc hr
        rw [hring]
        show WriterHolds mask (st.ring r (st.writing t))
        by_cases hwas : (st.table.threads t).pc.publishes = true
        · obtain ⟨hsame, hlive, hserves⟩ := haside.toPublishersKept.back h.table hwas ht hs hpc
          rw [show st'.table.threads t = st.table.threads t from hsame] at hpc hr
          exact h.writers t s r hlive hserves hpc hr
        · rw [h.writing_idle (by simpa using hwas)]
          trivial
      calls := hcalls
      payload := hpayload
      writing := by
        intro t x hx
        obtain ⟨hp, c, hc, hcx⟩ := h.writing t x hx
        obtain ⟨s, hpc⟩ := ThreadPc.publishes_iff.mp hp
        refine ⟨?_, c, ?_, hcx⟩
        · rw [show st'.table.threads t = st.table.threads t from haside.publishing t s hpc]
          exact hp
        · obtain hk | hk := hkeep t
          · exact hk.trans hc
          · rw [hp] at hk
            cases hk
      copying := fun r hd m hr => h.copying r hd m ((haside.reading r hd m).mp hr)
      accepted := haccepted
      faithful := h.faithful
      taken := fun r => by
        rw [show st'.table.cursor = st.table.cursor from haside.cursor]
        exact h.taken r }

/-! ### Around the hot path -/

section

variable [DecidableEq Session] [DecidableEq Module] [DecidableEq Process]
  {st' : PathState Thread Session Module Process}

/-- The collector anchors cursor `i`, and counts from there. -/
theorem anchor {i : Nat} (hpc : st.table.collector = .anchor i) (hi : i < count)
    (hs : st.around d count mask self .work = some st') : PathInv d mask st' := by
  have hwork : TableState.step d count mask self .work st.table =
      some { st.table with
        cursor := Function.update st.table.cursor i (st.table.head i), collector := .anchor (i + 1) } := by
    simp only [TableState.step, TableState.work, hpc, if_pos hi]
  have htable := (h.table.step _ hwork).1
  simp only [PathState.around, TableAction.aside, if_true, hwork, Option.map_some, hpc, if_pos hi,
    Option.some.injEq] at hs
  have hidle : ∀ r, st.reader r = .idle := fun r => by simp only [PathState.reader, hpc]
  have hidle' : ∀ r, st'.reader r = .idle := fun r => by simp only [← hs, PathState.reader]
  have hself : ∀ w, st'.ring i w =
      { st.ring i w with
        cursor := st.table.head i, lost := 0, initial := st.table.head i, consumed := 0,
        callCursor := st.table.head i, callLost := 0 } := by
    intro w
    simp only [PathState.ring, hidle', hidle]
    simp only [← hs, PathState.published, Function.update_self, List.length_nil]
  have hother : ∀ r w, r ≠ i → st'.ring r w = st.ring r w := by
    intro r w hr
    refine PathState.ring_congr w ?_ ?_ ((hidle' r).trans (hidle r).symm) ?_ ?_ ?_ ?_ ?_
    all_goals simp only [← hs, PathState.published, Function.update_of_ne hr]
  refine
    { table := by rw [← hs]; exact htable
      rings := fun r => ?_
      writers := fun t s r ht hserves hp hr => ?_
      calls := by rw [← hs]; exact h.calls
      payload := by rw [← hs]; exact h.payload
      writing := by rw [← hs]; exact h.writing
      copying := fun r hd m hr => by rw [← hs] at hr; cases hr
      accepted := by rw [← hs]; exact h.accepted
      faithful := by rw [← hs]; exact h.faithful
      taken := fun r => ?_ }
  · by_cases hr : r = i
    · subst hr
      rw [hself]
      exact (h.rings r).anchor (hidle r)
    · rw [hother r _ hr]
      exact h.rings r
  · have hw : WriterHolds mask (st.ring r (st.writing t)) := by
      rw [← hs] at ht hserves hp hr
      exact h.writers t s r ht hserves hp hr
    have hwriting : st'.writing t = st.writing t := by rw [← hs]
    rw [hwriting]
    by_cases he : r = i
    · subst he
      rw [hself]
      exact hw
    · rw [hother r _ he]
      exact hw
  · by_cases hr : r = i
    · subst hr
      rw [← hs]
      simp
    · have := h.taken r
      rw [← hs]
      simp only [Function.update_of_ne hr]
      exact this

theorem around {a : TableAction Thread Session Module Process} (hs : st.around d count mask self a = some st') :
    PathInv d mask st' := by
  by_cases hanchor : a = .work ∧ ∃ i, st.table.collector = .anchor i ∧ i < count
  · obtain ⟨rfl, i, hpc, hi⟩ := hanchor
    exact h.anchor hpc hi hs
  · have hnot : a = .work → ∀ i, st.table.collector = .anchor i → ¬ i < count :=
      fun ha i hpc hi => hanchor ⟨ha, i, hpc, hi⟩
    unfold PathState.around at hs
    split at hs
    · rename_i ha
      obtain ⟨table, htable, hs⟩ := Option.map_eq_some_iff.mp hs
      obtain ⟨haside, hstamping⟩ := TableState.step_aside ha htable hnot
      have hinv := h.aside st.calls st.accepted (h.table.step a htable).1 haside
        (fun t => (h.calls t).trans (hstamping t).symm) (fun _ => .inl rfl) h.payload h.accepted
      split at hs
      · rename_i hpc _
        rw [if_neg (hnot rfl _ hpc)] at hs
        exact hs ▸ hinv
      · exact hs ▸ hinv
    · cases hs

/-! ### The calls -/

omit [DecidableEq Module] in
theorem stamp {t : Thread} {c : HotCall} (hs : st.stamp d t c = some st') : PathInv d mask st' := by
  unfold PathState.stamp at hs
  obtain ⟨table, htable, hs⟩ := Option.map_eq_some_iff.mp hs
  obtain ⟨haside, hidle, hself, hother⟩ := TableState.enter_aside htable
  have hinv := (h.table.enter (a := .stamp t) h.table.current htable).1
  have hnone : st.calls t = none := by
    have := h.calls t
    rw [hidle] at this
    exact Option.isSome_eq_false_iff.mp this |> Option.isNone_iff_eq_none.mp
  have hsame : ∀ t', t' ≠ t → (st.calls t').isSome = (table.threads t').pc.stamping := fun t' he => by
    rw [hother t' he]
    exact h.calls t'
  split at hs
  · rename_i s hms
    subst hs
    rw [hms] at hself
    refine h.aside _ _ hinv haside (fun t' => ?_) (fun t' => ?_) (fun t' c' v hc => ?_) fun t' => ?_
    all_goals
      by_cases he : t' = t
      swap
    · rw [Function.update_of_ne he]
      exact hsame t' he
    · subst he
      rw [Function.update_self, hself]
      rfl
    · exact .inl (Function.update_of_ne he _ _)
    · subst he
      exact .inr (by rw [hidle]; rfl)
    · rw [Function.update_of_ne he] at hc
      exact h.payload t' c' v hc
    · subst he
      rw [Function.update_self] at hc
      cases hc
      exact id
    · rw [Function.update_of_ne he, Function.update_of_ne he]
      exact h.accepted t'
    · subst he
      rw [Function.update_self, Function.update_self, h.accepted t', hnone]
      simp
  · rename_i hms
    subst hs
    rw [hms] at hself
    refine h.aside _ _ hinv haside (fun t' => ?_) (fun _ => .inl rfl) h.payload h.accepted
    by_cases he : t' = t
    · subst he
      rw [hnone, hself]
      rfl
    · exact hsame t' he

omit [DecidableEq Session] [DecidableEq Module] in
theorem readTsc {t : Thread} {now : UInt64} (hs : st.readTsc d t now = some st') : PathInv d mask st' := by
  unfold PathState.readTsc at hs
  split at hs
  swap
  · cases hs
  rename_i c hc
  split at hs
  swap
  · cases hs
  rename_i hread
  cases hs
  have hnone := hread.2.1
  have hcalls : ∀ t', t' ≠ t → Function.update st.calls t (some { c with payload := some now }) t' = st.calls t' :=
    fun t' he => Function.update_of_ne he _ _
  exact
    { table := h.table
      rings := h.rings
      writers := h.writers
      calls := by
        intro t'
        by_cases he : t' = t
        · subst he
          have := h.calls t'
          rw [hc] at this
          simp only [Function.update_self]
          exact this
        · simpa only [hcalls t' he] using h.calls t'
      payload := by
        intro t' c' v hc' hv
        by_cases he : t' = t
        · subst he
          simp only [Function.update_self, Option.some.injEq] at hc'
          subst hc'
          have := h.payload t' c v hc hv
          rw [hnone] at this
          cases this
        · simp only [hcalls t' he] at hc'
          exact h.payload t' c' v hc' hv
      writing := by
        intro t' x hx
        obtain ⟨hp, c', hc', hcx⟩ := h.writing t' x hx
        refine ⟨hp, c', ?_, hcx⟩
        have he : t' ≠ t := by
          -- a call that has not read the counter has nothing to store
          rintro rfl
          rw [hc] at hc'
          cases hc'
          rw [Calling.sample, hnone] at hcx
          cases hcx
        simpa only [hcalls t' he] using hc'
      copying := h.copying
      accepted := by
        intro t'
        by_cases he : t' = t
        · subst he
          have := h.accepted t'
          rw [hc] at this
          simp only [Function.update_self]
          exact this
        · simpa only [hcalls t' he] using h.accepted t'
      faithful := h.faithful
      taken := h.taken }

/-! ### Publications -/

omit [DecidableEq Session] [DecidableEq Module] [DecidableEq Process] in
/-- What a thread about to publish into ring `r` is to it. -/
theorem writer {t : Thread} {s : Session} {r : Nat} (hlive : st.table.LiveThread d t) (hserves : st.table.Serves s r)
    (hpc : (st.table.threads t).pc = .publish s) (hr : (st.table.threads t).ring = some r) :
    (st.table.threads t).next = st.table.head r ∧ RingInv mask (st.ring r (st.writing t)) ∧
      ∀ t' s' r', st.table.LiveThread d t' → st.table.Serves s' r' → (st.table.threads t').pc = .publish s' →
        (st.table.threads t').ring = some r' → t' ≠ t → r' ≠ r := by
  have hbound : ∀ t s r, (st.table.threads t).pc = .publish s → (st.table.threads t).ring = some r →
      (st.table.threads t).Bound d s r := by
    intro t s r hpc hr
    have := h.table.pc t
    rw [ThreadState.PcHolds, hpc] at this
    exact ⟨this, hr⟩
  refine ⟨h.table.next t s r hlive hserves (hbound t s r hpc hr),
    (h.rings r).setWriter (h.writers t s r hlive hserves hpc hr), ?_⟩
  rintro t' s' r' hlive' hserves' hpc' hr' hne rfl
  exact hne (h.table.only_writer hlive' hlive hserves' hserves (hbound t' s' r' hpc' hr') (hbound t s r' hpc hr))

omit [DecidableEq Session] [DecidableEq Module] [DecidableEq Process] in
/-- A store of thread `t` into the slot of ring `r`, or what leads up to it. -/
theorem store {t : Thread} {s : Session} {r : Nat} {c : Calling} {x : Sample} (slots : Nat → Sample) (w : WriterPc)
    (hlive : st.table.LiveThread d t) (hserves : st.table.Serves s r) (hpc : (st.table.threads t).pc = .publish s)
    (hr : (st.table.threads t).ring = some r) (hc : st.calls t = some c) (hx : c.sample = some x)
    (hw : w.sample = some x) (hring : RingInv mask { st.ring r w with slots := slots }) :
    PathInv d mask
      { st with slots := Function.update st.slots r slots, writing := Function.update st.writing t w } := by
  set st' : PathState Thread Session Module Process :=
    { st with slots := Function.update st.slots r slots, writing := Function.update st.writing t w } with hst'
  have hself : ∀ w', st'.ring r w' = { st.ring r w' with slots := slots } := fun w' => by
    simp only [PathState.ring, hst', Function.update_self]
    rfl
  have hother : ∀ r' w', r' ≠ r → st'.ring r' w' = st.ring r' w' := fun r' w' hne => by
    simp only [PathState.ring, hst', Function.update_of_ne hne]
    rfl
  obtain ⟨-, -, halone⟩ := h.writer hlive hserves hpc hr
  exact
    { table := h.table
      rings := by
        intro r'
        by_cases he : r' = r
        · subst he
          rw [hself]
          exact hring.setWriter (w := .idle) trivial
        · rw [hother r' _ he]
          exact h.rings r'
      writers := by
        intro t' s' r' hlive' hserves' hpc' hr'
        by_cases he : t' = t
        · subst he
          have hsame : r' = r := Option.some.inj (hr'.symm.trans hr)
          subst hsame
          rw [hself, show st'.writing t' = w from Function.update_self ..]
          exact hring.writer
        · rw [hother r' _ (halone t' s' r' hlive' hserves' hpc' hr' he),
            show st'.writing t' = st.writing t' from Function.update_of_ne he _ _]
          exact h.writers t' s' r' hlive' hserves' hpc' hr'
      calls := h.calls
      payload := h.payload
      writing := by
        intro t' y hy
        by_cases he : t' = t
        · subst he
          rw [show st'.writing t' = w from Function.update_self .., hw] at hy
          cases hy
          exact ⟨by rw [show st'.table = st.table from rfl, hpc]; rfl, c, hc, hx⟩
        · rw [show st'.writing t' = st.writing t' from Function.update_of_ne he _ _] at hy
          exact h.writing t' y hy
      copying := h.copying
      accepted := h.accepted
      faithful := h.faithful
      taken := h.taken }

omit [DecidableEq Session] [DecidableEq Module] [DecidableEq Process] in
/-- The end of a call, whatever its head store has done to the rings. -/
theorem record {t : Thread} {s : Session} {ring : Option Nat} {c : Calling} {x : Sample}
    {table : TableState Thread Session Module Process} (hpc : (st.table.threads t).pc = .publish s)
    (hc : st.calls t = some c) (hx : c.sample = some x) (htable : TableInv d table)
    (hself : (table.threads t).pc = .idle) (hother : ∀ t', t' ≠ t → table.threads t' = st.table.threads t')
    (hcollector : table.collector = st.table.collector) (hcursor : table.cursor = st.table.cursor)
    (hrings : ∀ r, RingInv mask ((st.record t ring c.call x table).ring r .idle))
    (hwriters : ∀ t' s' r, t' ≠ t → table.LiveThread d t' → table.Serves s' r →
      (st.table.threads t').pc = .publish s' → (st.table.threads t').ring = some r →
      WriterHolds mask ((st.record t ring c.call x table).ring r (st.writing t'))) :
    PathInv d mask (st.record t ring c.call x table) := by
  set st' := st.record t ring c.call x table with hst'
  have hwriting : ∀ t', t' ≠ t → st'.writing t' = st.writing t' := fun t' he => Function.update_of_ne he _ _
  have hcalls : ∀ t', t' ≠ t → st'.calls t' = st.calls t' := fun t' he => Function.update_of_ne he _ _
  have hnone : st'.calls t = none := Function.update_self ..
  have hsample : c.payload = some x.timestamp ∧ x.point = c.call.point ∧ x.event = c.call.event := by
    obtain ⟨v, hv, rfl⟩ := Option.map_eq_some_iff.mp hx
    exact ⟨hv, rfl, rfl⟩
  refine
    { table := htable
      rings := hrings
      writers := ?_
      calls := ?_
      payload := ?_
      writing := ?_
      copying := ?_
      accepted := ?_
      faithful := ?_
      taken := ?_ }
  · intro t' s' r hlive hserves hpc' hr
    have he : t' ≠ t := by
      rintro rfl
      rw [show st'.table = table from rfl, hself] at hpc'
      cases hpc'
    rw [show st'.table.threads t' = st.table.threads t' from hother t' he] at hpc' hr
    rw [hwriting t' he]
    exact hwriters t' s' r he hlive hserves hpc' hr
  · intro t'
    by_cases he : t' = t
    · rw [he, hnone, show st'.table = table from rfl, hself]
      rfl
    · rw [hcalls t' he, show st'.table.threads t' = st.table.threads t' from hother t' he]
      exact h.calls t'
  · intro t' c' v hc' hv
    by_cases he : t' = t
    · rw [he, hnone] at hc'
      cases hc'
    · rw [hcalls t' he] at hc'
      exact h.payload t' c' v hc' hv
  · intro t' y hy
    by_cases he : t' = t
    · rw [he, show st'.writing t = .idle from Function.update_self ..] at hy
      cases hy
    · rw [hwriting t' he] at hy
      rw [hcalls t' he, show st'.table.threads t' = st.table.threads t' from hother t' he]
      exact h.writing t' y hy
  · intro r hd m hr
    exact h.copying r hd m (hcollector.symm.trans hr)
  · intro t'
    have hhistory : st'.history = st.history ++ [⟨t, ring, c.call, x⟩] := rfl
    rw [show st'.accepted = st.accepted from rfl, h.accepted t', hhistory, List.filter_append, List.map_append]
    by_cases he : t' = t
    · subst he
      rw [hnone, hc]
      simp
    · rw [hcalls t' he]
      simp [Ne.symm he]
  · intro y hy
    obtain hy | rfl := List.mem_append.mp hy |>.imp id List.mem_singleton.mp
    · exact h.faithful y hy
    · refine ⟨hsample.2.1, hsample.2.2, fun v hv => ?_⟩
      have := h.payload t c v hc hv
      rw [hsample.1] at this
      exact Option.some.inj this
  · intro r
    obtain ⟨hsorted, htaken⟩ := h.taken r
    refine ⟨hsorted, fun y hy => ?_⟩
    obtain ⟨hlow, hup, hget⟩ := htaken y hy
    refine ⟨hlow, by rw [show st'.table.cursor = st.table.cursor from hcursor]; exact hup, ?_⟩
    -- the log only grows
    have hlog : st'.published r = st.published r ++
        (([⟨t, ring, c.call, x⟩] : List (HotRecord Thread)).filter fun y => y.ring = some r).map HotRecord.sample := by
      simp only [PathState.published, hst', PathState.record, List.filter_append, List.map_append, List.append_assoc]
    rw [hlog, List.getElem?_append_left (List.getElem?_eq_some_iff.mp hget).1]
    exact hget

omit [DecidableEq Session] [DecidableEq Module] in
/-- The head store of a thread bound to ring `r`. -/
theorem recordRing {t : Thread} {s : Session} {r : Nat} {c : Calling} {x : Sample}
    {table : TableState Thread Session Module Process} (hlive : st.table.LiveThread d t) (hserves : st.table.Serves s r)
    (hpc : (st.table.threads t).pc = .publish s) (hr : (st.table.threads t).ring = some r)
    (hc : st.calls t = some c) (hx : c.sample = some x) {k : Nat} (hk : mask + 1 = 2 ^ k) (hw : st.writing t = .head x)
    (hgo : st.table.go d count t = some table) : PathInv d mask (st.record t (some r) c.call x table) := by
  have htable := (h.table.go hgo).1
  obtain ⟨hnext, hwriter, halone⟩ := h.writer hlive hserves hpc hr
  have hnew : table = { st.table with head := Function.update st.table.head r (st.table.head r + 1) }.setThread t
      { st.table.threads t with next := (st.table.threads t).next + 1, pc := .idle } := by
    simp only [TableState.go, if_pos hlive.1, TableState.goPc, hpc, hr, if_pos hserves, Option.some.injEq] at hgo
    simp only [← hgo, hnext, hr]
  set st' := st.record t (some r) c.call x table with hst'
  have hother : ∀ t', t' ≠ t → table.threads t' = st.table.threads t' := fun t' he => by
    rw [hnew]
    exact Function.update_of_ne he _ _
  have hcollector : st'.table.collector = st.table.collector := by
    rw [show st'.table = table from rfl, hnew]
    rfl
  have hreader : ∀ r', st'.reader r' = st.reader r' :=
    PathState.reader_congr (fun _ _ _ => by rw [hcollector]) rfl
  have hring : ∀ r' w, r' ≠ r → st'.ring r' w = st.ring r' w := by
    intro r' w he
    refine PathState.ring_congr w rfl ?_ (hreader r') ?_ rfl ?_ rfl rfl
    · rw [show st'.table = table from rfl, hnew]
      exact Function.update_of_ne he _ _
    · rw [show st'.table = table from rfl, hnew]
      rfl
    · simp [PathState.published, hst', PathState.record, Ne.symm he]
  refine h.record hpc hc hx htable (by rw [hnew]; simp [TableState.setThread]) hother hcollector
    (by rw [hnew]; rfl) (fun r' => ?_) fun t' s' r' he hlive' hserves' hpc' hr' => ?_
  · by_cases he : r' = r
    · subst he
      -- the ring's own head store
      have hstore : (st.ring r' (.head x)).storeNext mask = some (st'.ring r' .idle) := by
        have hhead : st'.table.head r' = st.table.head r' + 1 := by
          rw [show st'.table = table from rfl, hnew]
          exact Function.update_self ..
        have hcursor : st'.table.cursor = st.table.cursor := by
          rw [show st'.table = table from rfl, hnew]
          rfl
        have hlog : st'.published r' = st.published r' ++ [x] := by
          simp [PathState.published, hst', PathState.record, List.append_assoc]
        simp only [RingState.storeNext, PathState.ring, hhead, hcursor, hlog, hreader]
        rfl
      rw [hw] at hwriter
      exact hwriter.storeNext hk hstore
    · rw [hring r' _ he]
      exact h.rings r'
  · have hlive : st.table.LiveThread d t' := by
      refine .of_publish ?_ hpc'
      have := hlive'.1
      rw [hnew] at this
      exact this
    have hserves : st.table.Serves s' r' := by
      rw [hnew] at hserves'
      exact hserves'
    rw [hring r' _ (halone t' s' r' hlive hserves hpc' hr' he)]
    exact h.writers t' s' r' hlive hserves hpc' hr'

omit [DecidableEq Session] [DecidableEq Module] in
/-- A publication into the shared ring. -/
theorem recordShared {t : Thread} {s : Session} {c : Calling} {x : Sample}
    {table : TableState Thread Session Module Process} (hpc : (st.table.threads t).pc = .publish s)
    (hr : (st.table.threads t).ring = none) (hc : st.calls t = some c) (hx : c.sample = some x)
    (hgo : st.table.go d count t = some table) : PathInv d mask (st.record t none c.call x table) := by
  have htable := (h.table.go hgo).1
  have hnew : table = st.table.setThread t { st.table.threads t with pc := .idle } := by
    unfold TableState.go at hgo
    split at hgo
    · simpa only [TableState.goPc, hpc, hr, Option.some.injEq] using hgo.symm
    · cases hgo
  set st' := st.record t none c.call x table with hst'
  have hother : ∀ t', t' ≠ t → table.threads t' = st.table.threads t' := fun t' he => by
    rw [hnew]
    exact Function.update_of_ne he _ _
  have hcollector : st'.table.collector = st.table.collector := by
    rw [show st'.table = table from rfl, hnew]
    rfl
  have hreader : ∀ r, st'.reader r = st.reader r := PathState.reader_congr (fun _ _ _ => by rw [hcollector]) rfl
  have hring : ∀ r w, st'.ring r w = st.ring r w := by
    intro r w
    refine PathState.ring_congr w rfl ?_ (hreader r) ?_ rfl ?_ rfl rfl
    · rw [show st'.table = table from rfl, hnew]
      rfl
    · rw [show st'.table = table from rfl, hnew]
      rfl
    · simp [PathState.published, hst', PathState.record]
  refine h.record hpc hc hx htable (by rw [hnew]; simp [TableState.setThread]) hother hcollector
    (by rw [hnew]; rfl) (fun r => by rw [hring]; exact h.rings r) fun t' s' r' he hlive' hserves' hpc' hr' => ?_
  rw [hring]
  refine h.writers t' s' r' (.of_publish ?_ hpc') ?_ hpc' hr'
  · have := hlive'.1
    rw [hnew] at this
    exact this
  · rw [hnew] at hserves'
    exact hserves'

omit [DecidableEq Session] [DecidableEq Module] in
theorem go {k : Nat} (hk : mask + 1 = 2 ^ k) {t : Thread} (hs : st.go d count mask t = some st') :
    PathInv d mask st' := by
  unfold PathState.go at hs
  split at hs
  · rename_i s c hpc hc
    split at hs
    · rename_i x r hx hr
      split at hs
      swap
      · cases hs
      rename_i hguard
      have hlive : st.table.LiveThread d t := .of_publish hguard.1 hpc
      have hserves := hguard.2
      obtain ⟨hnext, hwriter, -⟩ := h.writer hlive hserves hpc hr
      -- the sample in the writer's hands is the call's
      have hsame : ∀ y, (st.writing t).sample = some y → y = x := by
        intro y hy
        obtain ⟨-, c', hc', hcy⟩ := h.writing t y hy
        rw [hc] at hc'
        cases hc'
        exact Option.some.inj (hcy.symm.trans hx)
      unfold PathState.publish at hs
      split at hs
      · rename_i hw
        cases hs
        have := h.store (st.slots r) (.timestamp x) hlive hserves hpc hr hc hx rfl
          ((h.rings r).setWriter (w := .timestamp x) trivial)
        rwa [Function.update_eq_self] at this
      · rename_i y hw
        obtain ⟨table, hgo, rfl⟩ := Option.map_eq_some_iff.mp hs
        obtain rfl := hsame y (by rw [hw]; rfl)
        exact h.recordRing hlive hserves hpc hr hc hx hk hw hgo
      · rename_i hidle hhead
        obtain ⟨q, hq, rfl⟩ := Option.map_eq_some_iff.mp hs
        rw [hnext] at hq
        have hstore : (st.ring r (st.writing t)).storeNext mask = some q := hq
        have hslot := RingState.storeNext_slot (fun y hy => hhead y hy) hstore
        have hsample := RingState.storeNext_sample (fun y hy => hhead y hy) hstore
        have hinv := hwriter.storeNext hk hstore
        rw [hslot] at hinv
        refine h.store q.slots q.writer hlive hserves hpc hr hc hx ?_ hinv
        cases hw : st.writing t with
        | idle => exact absurd hw hidle
        | _ y =>
            rw [hsample, show (st.ring r (st.writing t)).writer = st.writing t from rfl, hw,
              ← hsame y (by rw [hw]; rfl)]
            rfl
    · rename_i x hx hr
      obtain ⟨table, hgo, rfl⟩ := Option.map_eq_some_iff.mp hs
      exact h.recordShared hpc hr hc hx hgo
    · cases hs
  · cases hs
  · rename_i hnot hnot'
    split at hs
    · cases hs
    · obtain ⟨table, hgo, rfl⟩ := Option.map_eq_some_iff.mp hs
      have hp : (st.table.threads t).pc.publishes = false := by
        cases hpc : (st.table.threads t).pc with
        | publish s =>
            cases hc : st.calls t with
            | none => exact absurd hc (hnot' s hpc)
            | some c => exact absurd hc (hnot s c hpc)
        | _ => rfl
      obtain ⟨haside, hstamping⟩ := TableState.go_aside hp hgo
      exact h.aside _ _ (h.table.go hgo).1 haside (fun t' => (h.calls t').trans (hstamping t').symm)
        (fun _ => .inl rfl) h.payload h.accepted

/-! ### The reader -/

omit [DecidableEq Session] [DecidableEq Module] [DecidableEq Process] in
/-- The collector moves on in ring `r`, to a place `q` of its read. -/
theorem setReader {r : Nat} {q : RingState} (table : TableState Thread Session Module Process)
    (copying : Option Copy) (taken : Nat → List (Nat × Sample)) (lost : Nat → Nat) (htable : TableInv d table)
    (hq : RingInv mask q)
    (hring : ({ st with table := table, copying := copying, taken := taken, lost := lost } :
      PathState Thread Session Module Process).ring r .idle = q)
    (hother : ∀ r', r' ≠ r → ({ st with table := table, copying := copying, taken := taken, lost := lost } :
      PathState Thread Session Module Process).ring r' .idle = st.ring r' .idle)
    (hhead : table.head = st.table.head) (hthreads : table.threads = st.table.threads)
    (hoccupant : table.occupant = st.table.occupant) (hphase : table.phase = st.table.phase)
    (hcopying : ∀ r h m, table.collector = .read r h m → ∃ c, copying = some c ∧ c.h = h ∧ c.maxN = m)
    (htaken : ∀ r, (taken r).Pairwise (fun y z => y.1 < z.1) ∧
      ∀ y ∈ taken r, st.initial r ≤ y.1 ∧ y.1 < table.cursor r ∧ (st.published r)[y.1]? = some y.2) :
    PathInv d mask { st with table := table, copying := copying, taken := taken, lost := lost } where
  table := htable
  rings r' := by
    by_cases he : r' = r
    · subst he
      rw [hring]
      exact hq
    · rw [hother r' he]
      exact h.rings r'
  writers t s r' hlive hserves hpc hr := by
    rw [show _ = table.threads t from rfl, hthreads] at hpc hr
    -- what the writer has stored the reader does not touch
    have hal : st.table.Alive d (d.threadHome t) := by
      have := hlive.1
      unfold TableState.Alive at this ⊢
      rwa [← hoccupant]
    have hserved : st.table.Serves s r' := by
      unfold TableState.Serves at hserves ⊢
      rwa [← hphase]
    have := h.writers t s r' (.of_publish hal hpc) hserved hpc hr
    unfold WriterHolds at this ⊢
    simp only [PathState.ring, hhead] at this ⊢
    exact this
  calls t := by
    rw [show _ = table.threads t from rfl, hthreads]
    exact h.calls t
  payload := h.payload
  writing t x hx := by
    rw [show _ = table.threads t from rfl, hthreads]
    exact h.writing t x hx
  copying := hcopying
  accepted := h.accepted
  faithful := h.faithful
  taken := htaken

omit [DecidableEq Session] [DecidableEq Module] [DecidableEq Process] in
theorem read {r maxN : Nat} (hs : st.read mask r maxN = some st') : PathInv d mask st' := by
  unfold PathState.read at hs
  obtain ⟨table, htable, hs⟩ := Option.map_eq_some_iff.mp hs
  have hinv := (h.table.readHead htable).1
  unfold TableState.readHead at htable
  split at htable
  swap
  · cases htable
  rename_i hidle
  have hreader : ∀ r', st.reader r' = .idle := fun r' => by simp only [PathState.reader, hidle]
  split at htable
  · cases htable
    simp only [hidle] at hs
    exact hs ▸ h
  · rename_i hnonempty
    cases htable
    simp only at hs
    subst hs
    have hread : (st.ring r .idle).readHead mask maxN =
        some { st.ring r .idle with
          reader := .copying ⟨st.table.head r, maxN, readStart (st.table.head r) mask (st.table.cursor r),
            readStop (st.table.head r) (readStart (st.table.head r) mask (st.table.cursor r)) maxN,
            readStart (st.table.head r) mask (st.table.cursor r), [], .none⟩ } := by
      simp only [RingState.readHead, PathState.ring, hreader, if_neg hnonempty]
    refine h.setReader (r := r) _ _ st.taken st.lost hinv ((h.rings r).readHead hread) ?_
      (fun r' he => ?_) rfl rfl rfl rfl (fun r' hd m hr => ?_) h.taken
    · simp only [PathState.ring, PathState.reader, if_true]
      rfl
    · simp only [PathState.ring, PathState.reader, if_neg (Ne.symm he), hidle]
      rfl
    · cases hr
      exact ⟨_, rfl, rfl, rfl⟩

omit [DecidableEq Session] [DecidableEq Module] [DecidableEq Process] in
theorem load (hs : st.load mask = some st') : PathInv d mask st' := by
  unfold PathState.load at hs
  split at hs
  swap
  · cases hs
  rename_i r hd m hpc
  obtain ⟨q, hq, hs⟩ := Option.bind_eq_some_iff.mp hs
  split at hs
  swap
  · cases hs
  rename_i c hc
  cases hs
  obtain ⟨c₀, hc₀, hh, hmax⟩ := h.copying r hd m hpc
  obtain ⟨hqs, c₁, hc₁, hch, hcmax⟩ := RingState.loadNext_copying hq hc
  have hreader : st.reader r = .copying c₀ := by simp only [PathState.reader, hpc, hc₀, if_true]
  have he : c₁ = c₀ := by
    rw [show (st.ring r .idle).reader = st.reader r from rfl, hreader] at hc₁
    exact (ReaderPc.copying.inj hc₁).symm
  rw [he] at hch hcmax
  refine h.setReader (r := r) st.table (some c) st.taken st.lost h.table
    ((h.rings r).loadNext hq) ?_ (fun r' hne => ?_) rfl rfl rfl rfl (fun r' hd' m' hr => ?_) h.taken
  · rw [hqs]
    simp only [PathState.ring, PathState.reader, hpc, if_true]
    rfl
  · simp only [PathState.ring, PathState.reader, hpc, hc₀, if_neg (Ne.symm hne)]
    rfl
  · rw [hpc] at hr
    cases hr
    exact ⟨c, rfl, hch.trans hh, hcmax.trans hmax⟩

omit [DecidableEq Session] [DecidableEq Module] [DecidableEq Process] in
theorem consume {k : Nat} (hk : mask + 1 = 2 ^ k) {n : Nat} (hs : st.consume mask n = some st') : PathInv d mask st' := by
  unfold PathState.consume at hs
  split at hs
  swap
  · cases hs
  rename_i r hd m c hpc hc
  split at hs
  · cases hs
  rename_i hdone
  obtain ⟨table, htable, rfl⟩ := Option.map_eq_some_iff.mp hs
  have hinv := (h.table.consume htable).1
  obtain ⟨c₀, hc₀, hch, hcmax⟩ := h.copying r hd m hpc
  rw [hc] at hc₀
  cases hc₀
  have hreader : st.reader r = .copying c := by simp only [PathState.reader, hpc, hc, if_true]
  have hcopy : CopyHolds mask (st.ring r .idle) c := by
    have := (h.rings r).reader
    rwa [ReaderHolds, show (st.ring r .idle).reader = st.reader r from rfl, hreader] at this
  -- the claim protocol's bounds are the copy's
  have hstart : readStart hd mask (st.table.cursor r) = c.start := by rw [← hch]; exact hcopy.start.symm
  have hstop : readStop hd c.start m = c.stop := by rw [← hch, ← hcmax]; exact hcopy.stop.symm
  simp only [TableState.consume, hpc, hstart, hstop] at htable
  set first := readFirst (firstIntact (st.table.head r) mask) c.start c.stop with hfirst
  split at htable
  swap
  · cases htable
  rename_i hn
  cases htable
  have hload : (st.ring r .idle).loadNext mask = some { st.ring r .idle with
      lost := st.lost r + (first - st.table.cursor r), cursor := first
      reader := .returned (c.scratch.drop (first - c.start)) } := by
    simp only [RingState.loadNext, PathState.ring, hreader, if_neg hdone, hfirst]
  have hloaded := (h.rings r).loadNext hload
  have hreturned : ReturnedHolds _ (c.scratch.drop (first - c.start)) := hloaded.reader
  have hbatch : ((c.scratch.drop (first - c.start)).take n).length = n := by
    have hlen := hcopy.length
    have hrange := hcopy.range
    obtain ⟨hcur, hch', hss⟩ := hcopy.bounds
    have hlow : c.start ≤ first := by
      rw [hfirst]
      unfold readFirst
      split_ifs <;> omega
    rw [List.length_take, List.length_drop]
    omega
  have hconsumed : RingInv mask { st.ring r .idle with
      lost := st.lost r + (first - st.table.cursor r), cursor := first + n
      reader := .idle, consumed := (st.taken r).length + n } := hloaded.step hk (a := .consume n) (by
    simp only [RingState.step]
    rw [if_pos (by simpa using hbatch)]
    rfl)
  have hlow : st.table.cursor r ≤ first ∧ st.initial r ≤ first := by
    have hled := (h.rings r).ledger
    have hcall := hreturned.call
    have hcur : st.table.cursor r = st.initial r + (st.taken r).length + st.lost r := hled
    have hle : st.table.cursor r ≤ first := hcall.1
    omega
  refine h.setReader (r := r) _ none _ _ hinv (hconsumed.recall rfl (first + n) (st.lost r + (first - st.table.cursor r))) ?_
    (fun r' hne => ?_) rfl rfl rfl rfl (fun _ _ _ hr => by cases hr) fun r' => ?_
  · simp only [PathState.ring, PathState.reader, Function.update_self, List.length_append, List.length_zip,
      List.length_range', hbatch, Nat.min_self]
    rfl
  · simp only [PathState.ring, PathState.reader, hpc, hc, Function.update_of_ne hne, if_neg (Ne.symm hne)]
    rfl
  · by_cases hne : r' = r
    · subst hne
      obtain ⟨hsorted, htaken⟩ := h.taken r'
      have hnew : ∀ y ∈ (List.range' first n).zip ((c.scratch.drop (first - c.start)).take n),
          first ≤ y.1 ∧ y.1 < first + n ∧ (st.published r')[y.1]? = some y.2 := by
        intro y hy
        obtain ⟨j, hj, hy1, hy2⟩ := mem_zip_range' hy
        refine ⟨by omega, by omega, ?_⟩
        rw [hy1]
        rw [List.getElem?_take_of_lt hj] at hy2
        exact hreturned.published j y.2 hy2
      simp only [Function.update_self]
      refine ⟨List.pairwise_append.mpr ⟨hsorted, ?_, fun y hy z hz => ?_⟩, fun y hy => ?_⟩
      · rw [← List.pairwise_map (f := Prod.fst) (R := (· < ·)), List.map_fst_zip (by simp [hbatch])]
        exact List.pairwise_lt_range'
      · have := (htaken y hy).2.1
        have := (hnew z hz).1
        omega
      · obtain hy | hy := List.mem_append.mp hy
        · obtain ⟨hy1, hy2, hy3⟩ := htaken y hy
          exact ⟨hy1, by omega, hy3⟩
        · obtain ⟨hy1, hy2, hy3⟩ := hnew y hy
          exact ⟨by omega, hy2, hy3⟩
    · simp only [Function.update_of_ne hne]
      exact h.taken r'

end

end PathInv

/-! ## Runs -/

variable {st st' : PathState Thread Session Module Process}

theorem PathInv.init (h : PathInit mask st) : PathInv d mask st where
  table := .init h.table
  rings r := by
    have hlog : st.published r = st.earlier r := by simp [PathState.published, h.history]
    exact
      { next := rfl
        head := by
          rw [show (st.ring r .idle).published = st.published r from rfl, hlog, h.length]
          rfl
        slots := fun i x hi hle => h.slots r i x (hlog ▸ hi) hle
        writer := trivial
        reader := by
          rw [ReaderHolds, show (st.ring r .idle).reader = .idle by
            simp only [PathState.ring, PathState.reader, h.table.collector]]
          trivial
        bound := h.table.cursor r
        ledger := by simp [PathState.ring, h.initial, h.taken, h.lost] }
  writers t s r _ hserves := absurd (h.table.phase s) hserves.started
  calls t := by
    rw [h.calls t, h.table.threads t]
    rfl
  payload t c v hc := by
    rw [h.calls t] at hc
    cases hc
  writing t x hx := by
    rw [h.writing t] at hx
    cases hx
  copying r hd m hr := by
    rw [h.table.collector] at hr
    cases hr
  accepted t := by
    rw [h.accepted, h.history, h.calls]
    rfl
  faithful x hx := by
    rw [h.history] at hx
    cases hx
  taken r := by
    rw [h.taken r]
    exact ⟨.nil, fun y hy => by cases hy⟩

variable [DecidableEq Session] [DecidableEq Module] [DecidableEq Process]

theorem PathInv.step {k : Nat} (hk : mask + 1 = 2 ^ k) (h : PathInv d mask st)
    {a : PathAction Thread Session Module Process} (hs : PathState.step d count mask self a st = some st') :
    PathInv d mask st' := by
  cases a with
  | table a => exact h.around hs
  | stamp t c => exact h.stamp hs
  | readTsc t now => exact h.readTsc hs
  | go t => exact h.go hk hs
  | read r maxN => exact h.read hs
  | load => exact h.load hs
  | consume n => exact h.consume hk hs

theorem PathInv.reachable {k : Nat} (hk : mask + 1 = 2 ^ k) (h : (pathSystem d count mask self).Reachable st) :
    PathInv d mask st :=
  h.invariant (fun _ => .init) fun _ _ _ hi hs => hi.step hk hs

end SlickPerfmon
