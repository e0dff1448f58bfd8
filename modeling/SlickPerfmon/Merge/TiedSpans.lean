import SlickPerfmon.Merge.TieBreak
import SlickPerfmon.Pairing.Lemmas.Events

/-!
# The spans of a tie

Whether stamps of one timestamp pair cleanly depends on the spans that are open only, as long as the table of open
spans has room for the begins among them; which spans are open after some of them is a matter of counting.
-/

namespace SlickPerfmon

open Library

/-- The stamps a source holds of a tie, each with the values behind it. -/
abbrev TiedLane := List (Sample × List Sample)

/-- The tie seen from the open spans: a begin opens one and an end closes one. -/
def spanTies : TieBreak (UInt64 → Bool) (Sample × List Sample) Nat where
  feed o x :=
    if x.1.step = kBeginStep then Function.update o x.1.key true
    else if x.1.step = kEndStep then Function.update o x.1.key false
    else o
  clean o x := (x.1.step == kBeginStep) != o x.1.key
  key x := x.1.timestamp.toNat

theorem flatten_set_perm {α : Type} {lanes : List (List α)} {i : Nat} {x : α} {l : List α}
    (hi : lanes[i]? = some (x :: l)) : lanes.flatten.Perm (x :: (lanes.set i l).flatten) := by
  induction lanes generalizing i with
  | nil => cases hi
  | cons lane lanes ih =>
      cases i with
      | zero =>
          cases hi
          exact List.Perm.refl _
      | succ i =>
          rw [List.set_cons_succ, List.flatten_cons, List.flatten_cons]
          exact ((ih hi).append_left lane).trans List.perm_middle

section Room

variable {A : Type} [Accum A]

/-- The spans that are open. -/
def openSpans (P : Pairer A) (key : UInt64) : Bool := (P.spans.find key).isSome

/-- The table of open spans holds the spans the begins of the lanes open, and no open span was stamped after `t`. -/
structure TieRoom (t : UInt64) (P : Pairer A) (lanes : List TiedLane) : Prop where
  wf : P.spans.WF
  recent : ∀ key sp, P.spans.find key = some sp → sp.lastTsc ≤ t
  room : P.spans.size + lanes.flatten.countP (fun x => x.1.step = kBeginStep) ≤ P.spans.maxEntries

variable {t : UInt64} {P : Pairer A} {lanes : List TiedLane}

omit [Accum A] in
/-- One span is written or taken out, and no later than at `t`. -/
theorem TieRoom.change {P' : Pairer A} {lanes' : List TiedLane} {key : UInt64} {v : Option OpenSpan}
    (h : TieRoom t P lanes) (hwf : P'.spans.WF)
    (hfind : ∀ k, P'.spans.find k = if k = key then v else P.spans.find k)
    (hv : ∀ sp, v = some sp → sp.lastTsc ≤ t)
    (hroom : P'.spans.size + lanes'.flatten.countP (fun x => x.1.step = kBeginStep) ≤ P'.spans.maxEntries) :
    TieRoom t P' lanes' ∧ openSpans P' = Function.update (openSpans P) key v.isSome := by
  refine ⟨⟨hwf, fun k sp hk => ?_, hroom⟩, ?_⟩
  · rw [hfind] at hk
    split at hk
    · exact hv sp hk
    · exact h.recent k sp hk
  · funext k
    rw [openSpans, hfind, Function.update_apply]
    split
    · rfl
    · rfl

/-- A stamp that pairs cleanly where there is room. -/
theorem TieRoom.stamp (H : HeapLib) (h : TieRoom t P lanes) {i : Nat} {x : Sample × List Sample} {l : TiedLane}
    (hi : lanes[i]? = some (x :: l)) (hs : x.1.isStamp = true) (ht : x.1.timestamp = t)
    (hclean : P.pairsCleanly x.1 = true) :
    TieRoom t (P.onEvent H x.1) (lanes.set i l) ∧
      openSpans (P.onEvent H x.1) = spanTies.feed (openSpans P) x := by
  have hcount : lanes.flatten.countP (fun x => x.1.step = kBeginStep) =
      (lanes.set i l).flatten.countP (fun x => x.1.step = kBeginStep) + if x.1.step = kBeginStep then 1 else 0 := by
    rw [(flatten_set_perm hi).countP_eq, List.countP_cons]
    simp only [decide_eq_true_eq]
  have hroom := h.room
  have hlast : x.1.timestamp ≤ t := UInt64.le_of_eq ht
  have hclean : ((x.1.step == kBeginStep) != (P.spans.find x.1.key).isSome) = true := hclean
  unfold spanTies
  by_cases hb : x.1.step = kBeginStep
  · -- a begin of a closed span
    have hf : P.spans.find x.1.key = none := by simpa [hb] using hclean
    rw [if_pos hb] at hcount
    obtain ⟨spans, peak, hins, heq⟩ := Pairer.openBegin_room H h.wf hf (by omega)
    have hsize := hins.size
    rw [Pairer.onEvent_begin H hb, heq]
    simp only [if_pos hb]
    exact h.change hins.wf hins.find (fun _ hsp => Option.some.inj hsp ▸ hlast) (by rw [hsize, hins.maxEntries]; omega)
  · rw [beq_eq_false_iff_ne.mpr hb, Bool.false_bne, Option.isSome_iff_exists] at hclean
    obtain ⟨sp, hf⟩ := hclean
    have hle : ¬ x.1.timestamp < sp.lastTsc := by
      rw [ht]
      exact UInt64.not_lt.mpr (h.recent _ sp hf)
    rw [if_neg hb] at hcount
    simp only [if_neg hb]
    by_cases he : x.1.step = kEndStep
    · -- an end of an open span
      obtain ⟨-, hrem⟩ := OpenMap.erase_present h.wf hf
      have hsize := hrem.size
      rw [Pairer.onEvent_end H he hf hle]
      simp only [if_pos he]
      exact h.change hrem.wf hrem.find (v := none) (by simp) (by simp only [hrem.maxEntries]; omega)
    · -- a step of an open span
      rw [Pairer.onEvent_step H hs hb he hf hle]
      simp only [if_neg he]
      have hmod := OpenMap.modify_present h.wf (fun sp : OpenSpan =>
        { sp with
          lastTsc := x.1.timestamp, seenTsc := x.1.timestamp, lastStep := x.1.step,
          transitions := sp.transitions + 1 }) hf
      have hopen : openSpans P = Function.update (openSpans P) x.1.key true := by
        rw [← show openSpans P x.1.key = true by rw [openSpans, hf]; rfl, Function.update_eq_self]
      rw [hopen]
      exact h.change hmod.wf hmod.find (fun _ hsp => Option.some.inj hsp ▸ hlast)
        (by simp only [hmod.size, hmod.maxEntries]; omega)

end Room

end SlickPerfmon
