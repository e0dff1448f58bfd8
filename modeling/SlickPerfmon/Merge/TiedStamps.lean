import SlickPerfmon.Merge.TiedSpans
import SlickPerfmon.Merge.Order

/-!
# Stamps that tie

Stamps of one timestamp that have an order in which each pairs cleanly go in such an order, whatever the heap
operations do, exactly where they have no dead end: some of them, from the front of the sources, that can go cleanly
and leave no source with a stamp next that pairs.
-/

namespace SlickPerfmon

open Library

section Ties

variable {A : Type} [Accum A] (H : HeapLib) (env : World) (watermark t : UInt64) (sources : List MergeSource)

variable {H env watermark t sources} {m m' : Merger A} {new : List Handed}
  {fed : List ((Sample × List Sample) × Bool)}

/-! ## Calls of `on_event` and the stamps they hand over -/

theorem Feeds.foldl (h : Feeds new fed) (P : Pairer A) :
    new.foldl (fun P h => P.onEvent H h.sample) P = fed.foldl (fun P e => (stampTies H).feed P e.1) P := by
  induction h generalizing P with
  | nil => rfl
  | @cons h values new fed hs hvalues _ ih =>
      have hfeed : (stampTies H).feed P (h.sample, values.map Handed.sample) =
          values.foldl (fun P h => P.onEvent H h.sample) (P.onEvent H h.sample) := List.foldl_map
      rw [List.foldl_cons, List.foldl_append, List.foldl_cons, hfeed, ih]

theorem Feeds.stamps (h : Feeds new fed) :
    (new.filter fun h => h.sample.isStamp).map (fun h => (h.sample, h.clean)) = fed.map fun e => (e.1.1, e.2) := by
  induction h with
  | nil => rfl
  | @cons h values new fed hs hvalues _ ih =>
      have hnil : values.filter (fun h => h.sample.isStamp) = [] :=
        List.filter_eq_nil_iff.mpr fun v hv => by rw [hvalues v hv]; exact Bool.false_ne_true
      rw [List.filter_cons_of_pos (by simpa using hs), List.filter_append, hnil, List.nil_append, List.map_cons, ih]
      rfl

theorem Feeds.atKey (h : Feeds new fed) :
    (new.filter fun h => h.sample.isStamp && h.sample.timestamp = t).map Handed.sample =
      ((fed.map Prod.fst).filter fun x => decide ((stampTies (A := A) H).key x = t.toNat)).map Prod.fst := by
  have hkey : ∀ x, decide ((stampTies (A := A) H).key x = t.toNat) = decide (x.1.timestamp = t) := fun x =>
    decide_eq_decide.mpr UInt64.toNat_inj
  have hstamps := congrArg (fun l => (l.map Prod.fst).filter fun s : Sample => decide (s.timestamp = t)) h.stamps
  simp only [List.map_map, List.filter_map, List.filter_filter, Function.comp_def, Bool.and_comm, hkey] at hstamps ⊢
  exact hstamps

end Ties

/-! ## A step and an end on one tick -/

end SlickPerfmon
