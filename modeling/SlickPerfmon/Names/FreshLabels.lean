import SlickPerfmon.Names.LabelCache
import SlickPerfmon.Names.OneSlot
import SlickPerfmon.Store.Lemmas.OpenMap

/-!
# A cached label is never stale

What a cache holds for a name that is published is either that name or was cached under an older generation: the
generation moves after the key is stored, and a flush that sees it move empties the caches before it looks anything
up.
-/

namespace SlickPerfmon

open Library

variable {nameCapacity : Nat} {Caller : Type}

/-! ## The claimant of a slot -/

/-- Where the call stands whose CAS took slot `i`. -/
def Claims (i : Nat) : PublishPc → Prop
  | .write j _ => j = i
  | .store j => j = i
  | .bump j => j = i
  | .done result => result = true
  | _ => False

section Claimants

variable [DecidableEq Caller] {publications : Caller → Publication nameCapacity} {maxNames : Nat}
  {wanted : Unit → UInt32 × UInt8} {s s' : NameState Caller Unit} {p : Caller}

/-- Claimants go on from where they are; one is through only once it has bumped the generation. -/
structure ClaimsKept (s s' : NameState Caller Unit) : Prop where
  claims : ∀ i c, (s'.slots i).claimant = some c → Claims i (s'.publishers c)
  bumped : ∀ i c, (s'.slots i).claimant = some c → s'.publishers c = .done true →
    s'.generation = s.generation → (s.slots i).claimant = some c ∧ s.publishers c = .done true
  generation : s.generation ≤ s'.generation

/-- A call that holds no slot moves on. -/
theorem ClaimsKept.move (h : ∀ i c, (s.slots i).claimant = some c → Claims i (s.publishers c)) {pc : PublishPc}
    (hpc : ∀ i, ¬ Claims i (s.publishers p)) : ClaimsKept s (s.setPublisher p pc) := by
  have hne : ∀ i c, (s.slots i).claimant = some c → c ≠ p := by
    rintro i c hc rfl
    exact hpc i (h i c hc)
  have hsame : ∀ i c, (s.slots i).claimant = some c → (s.setPublisher p pc).publishers c = s.publishers c :=
    fun i c hc => Function.update_of_ne (hne i c hc) _ _
  refine ⟨fun i c hc => ?_, fun i c hc hd _ => ⟨hc, ?_⟩, Nat.le_refl _⟩
  · rw [hsame i c hc]
    exact h i c hc
  · rw [hsame i c hc] at hd
    exact hd

/-- A call that holds slot `i`, or takes it now, rewrites it and is not through. -/
theorem ClaimsKept.hold (h : ∀ i c, (s.slots i).claimant = some c → Claims i (s.publishers c)) {i : Nat}
    {slot : NameSlot Caller} {pc : PublishPc} (hclaim : slot.claimant = some p)
    (hown : ∀ j, Claims j (s.publishers p) → j = i) (hpc : Claims i pc) (hdone : pc ≠ .done true) :
    ClaimsKept s ((s.setSlot i slot).setPublisher p pc) := by
  have hslots : ∀ j c, (((s.setSlot i slot).setPublisher p pc).slots j).claimant = some c →
      j = i ∧ c = p ∨ j ≠ i ∧ (s.slots j).claimant = some c := by
    intro j c hc
    simp only [NameState.setPublisher, NameState.setSlot, Function.update_apply] at hc
    split at hc
    · rename_i hj
      rw [hclaim] at hc
      exact Or.inl ⟨hj, (Option.some.inj hc).symm⟩
    · rename_i hj
      exact Or.inr ⟨hj, hc⟩
  have hother : ∀ j c, j ≠ i → (s.slots j).claimant = some c → c ≠ p := by
    rintro j c hj hc rfl
    exact hj (hown j (h j c hc))
  refine ⟨fun j c hc => ?_, fun j c hc hd _ => ?_, Nat.le_refl _⟩
  · rcases hslots j c hc with ⟨rfl, rfl⟩ | ⟨hj, hc⟩
    · simpa [NameState.setPublisher] using hpc
    · simp only [NameState.setPublisher, NameState.setSlot, Function.update_of_ne (hother j c hj hc)]
      exact h j c hc
  · rcases hslots j c hc with ⟨rfl, rfl⟩ | ⟨hj, hc⟩
    · exact absurd (by simpa [NameState.setPublisher] using hd) hdone
    · simp only [NameState.setPublisher, NameState.setSlot, Function.update_of_ne (hother j c hj hc)] at hd
      exact ⟨hc, hd⟩

theorem claimsKept_publishStep (hinv : NameInv publications maxNames wanted s)
    (h : ∀ i c, (s.slots i).claimant = some c → Claims i (s.publishers c))
    (hs : s.publishStep maxNames (publications p) p = some s') : ClaimsKept s s' := by
  have hp := hinv.publishers p
  unfold NameState.publishStep at hs
  cases hpc : s.publishers p with
  | idle =>
      rw [hpc] at hs
      cases hs
      exact .move h (by rw [hpc]; exact fun _ hc => hc)
  | load i =>
      rw [hpc] at hs
      simp only at hs
      split at hs
      all_goals
        cases hs
        exact .move h (by rw [hpc]; exact fun _ hc => hc)
  | await i n lost =>
      rw [hpc] at hs
      simp only at hs
      split at hs
      all_goals
        cases hs
        exact .move h (by rw [hpc]; exact fun _ hc => hc)
  | cas i =>
      rw [hpc] at hs
      simp only at hs
      split at hs
      · cases hs
        exact .hold h rfl (by rw [hpc]; exact fun _ hc => hc.elim) rfl nofun
      · cases hs
        exact .move h (by rw [hpc]; exact fun _ hc => hc)
  | write i j =>
      rw [hpc] at hs hp
      simp only at hs
      split at hs
      all_goals
        cases hs
        exact .hold h hp.1 (by rw [hpc]; exact fun _ hc => hc.symm) rfl nofun
  | store i =>
      rw [hpc] at hs hp
      cases hs
      exact .hold h hp.1 (by rw [hpc]; exact fun _ hc => hc.symm) rfl nofun
  | bump i =>
      rw [hpc] at hs
      cases hs
      refine ⟨fun j c hc => ?_, fun j c hc hd hg => absurd hg (Nat.succ_ne_self _), Nat.le_succ _⟩
      simp only [NameState.setPublisher, Function.update_apply]
      split
      · rfl
      · exact h j c hc
  | compare i read =>
      rw [hpc] at hs
      simp only at hs
      split at hs
      all_goals
        cases hs
        exact .move h (by rw [hpc]; exact fun _ hc => hc)
  | done result => rw [hpc] at hs; cases hs

end Claimants

/-! ## Labels -/

section Labels

variable (publications : Caller → Publication nameCapacity)

/-- The name of the call `c` can be read from slot `i`. -/
def Published (names : NameState Caller Unit) (i : Nat) (c : Caller) : Prop :=
  (names.slots i).claimant = some c ∧ (names.slots i).keyPlusOne = (publications c).want

def Publication.named (c : Publication nameCapacity) : UInt32 × UInt8 := (c.point, c.step)

/-- A label that a row may have: the generated one, or one made of a name that was published for it. -/
def ValidLabel (names : NameState Caller Unit) (req : LabelRequest) (label : List UInt8) : Prop :=
  label = req.generated ∨ ∃ i c, Published publications names i c ∧ req.named = (publications c).named ∧
    label = req.labelOf (publications c).name

/-- The caches, and the lookup in flight, agree with the name of `c`, published in slot `i`. -/
structure Fresh (i : Nat) (c : Caller) (s : LabelState Caller) : Prop where
  hits : ∀ req label, req.fixed = none → req.named = (publications c).named → s.hit req = some label →
    label = req.labelOf (publications c).name
  looking : ∀ req todo, s.pc = .lookup req todo → req.named = (publications c).named →
    HeadsFor i (publications c).name (s.names.lookups ())

/-- The labels given so far agree with the name of `c`. -/
def Agrees (c : Caller) (s : LabelState Caller) : Prop :=
  ∀ e ∈ s.resolved, e.1.fixed = none → e.1.named = (publications c).named →
    e.2 = e.1.labelOf (publications c).name

/-- The key of the lookup in flight. -/
def LabelState.wanted (s : LabelState Caller) : Unit → UInt32 × UInt8 := fun _ =>
  match s.pc with
  | .lookup req _ => req.named
  | _ => (0, 0)

/-- The name table in order, labels valid, and what is cached under the current generation fresh. -/
structure LabelInv (maxNames : Nat) (s : LabelState Caller) : Prop where
  names : NameInv publications maxNames s.wanted s.names
  claims : ∀ i c, (s.names.slots i).claimant = some c → Claims i (s.names.publishers c)
  quiet : (∀ req todo, s.pc ≠ .lookup req todo) → s.names.lookups () = .idle
  asks : ∀ req todo, s.pc = .lookup req todo → req.fixed = none
  begun : ∀ todo, s.pc = .refresh todo → s.resolved = []
  wf : s.pointNames.WF ∧ s.stageNames.WF
  bounded : s.cachedGeneration ≤ s.names.generation
  cached : ∀ req label, req.fixed = none → s.hit req = some label → ValidLabel publications s.names req label
  given : ∀ e ∈ s.resolved, match e.1.fixed with
    | some label => e.2 = label
    | none => ValidLabel publications s.names e.1 e.2
  fresh : ∀ i c, (s.names.slots i).claimant = some c → s.names.publishers c = .done true →
    s.cachedGeneration = s.names.generation → Fresh publications i c s

/-- What no step undoes: a published name, and all that agrees with it. -/
structure LabelsKept (s s' : LabelState Caller) : Prop where
  kept : ∀ j, Kept (s.names.slots j) (s'.names.slots j)
  fresh : ∀ i c, Published publications s.names i c → Fresh publications i c s → Fresh publications i c s'
  told : ∀ i c, Published publications s.names i c → Fresh publications i c s → Agrees publications c s →
    Agrees publications c s'

end Labels

section Steps

variable {publications : Caller → Publication nameCapacity} {maxNames : Nat} {s s' : LabelState Caller}

theorem Published.kept {names names' : NameState Caller Unit} {i : Nat} {c : Caller}
    (h : Published publications names i c) (hk : ∀ j, Kept (names.slots j) (names'.slots j)) :
    Published publications names' i c := by
  have hsame := (hk i).word (publications c).isWant h.2
  exact ⟨by rw [hsame]; exact h.1, by rw [hsame]; exact h.2⟩

theorem ValidLabel.kept {names names' : NameState Caller Unit} {req : LabelRequest} {label : List UInt8}
    (h : ValidLabel publications names req label) (hk : ∀ j, Kept (names.slots j) (names'.slots j)) :
    ValidLabel publications names' req label := by
  rcases h with h | ⟨i, c, hp, hn, hl⟩
  · exact Or.inl h
  · exact Or.inr ⟨i, c, hp.kept hk, hn, hl⟩

/-- A claimant that is through has published. -/
theorem published_of_done {wanted : Unit → UInt32 × UInt8} {names : NameState Caller Unit}
    (h : NameInv publications maxNames wanted names) {i : Nat} {c : Caller}
    (hc : (names.slots i).claimant = some c) (hd : names.publishers c = .done true) :
    Published publications names i c := by
  refine ⟨hc, ?_⟩
  have hp := h.publishers c
  rw [hd] at hp
  obtain ⟨j, c', hword, -, -⟩ := hp
  obtain ⟨hu, hkey⟩ := (h.slots i).of_claimant hc
  have hij : i = j := h.unique i j hu (by rw [hkey, hword, (publications c).isWant.keyOf])
  rw [hij]
  exact hword

/-- A name found under the key a row asks for is a call's of that point and step. -/
theorem named_of_want {req : LabelRequest} {c : Caller}
    (h : nameKey req.named.1 req.named.2 + 1 = (publications c).want) : req.named = (publications c).named :=
  Prod.ext (nameKey_succ_inj h).1 (nameKey_succ_inj h).2

/-! ### Insertion -/

theorem hit_keep (h : s.pointNames.WF ∧ s.stageNames.WF) (req : LabelRequest) (label : List UInt8) :
    ((s.keep req label).pointNames.WF ∧ (s.keep req label).stageNames.WF) ∧
      ∀ req' label', (s.keep req label).hit req' = some label' →
        s.hit req' = some label' ∨ req' = req ∧ label' = label := by
  cases req with
  | point p =>
      obtain ⟨hwf, hfind⟩ := OpenMap.find_insert h.1 p.toUInt64 label
      refine ⟨⟨hwf, h.2⟩, fun req' label' hhit => ?_⟩
      cases req' with
      | point p' =>
          rcases hfind _ _ hhit with hold | ⟨hk, hl⟩
          · exact Or.inl hold
          · rw [toUInt64_inj hk]
            exact Or.inr ⟨rfl, hl⟩
      | stage p' f' t' => exact Or.inl hhit
  | stage p f t =>
      obtain ⟨hwf, hfind⟩ := OpenMap.find_insert h.2 (stageKey p f t) label
      refine ⟨⟨h.1, hwf⟩, fun req' label' hhit => ?_⟩
      cases req' with
      | point p' => exact Or.inl hhit
      | stage p' f' t' =>
          rcases hfind _ _ hhit with hold | ⟨hk, hl⟩
          · exact Or.inl hold
          · obtain ⟨rfl, rfl, rfl⟩ := stageKey_inj hk
            exact Or.inr ⟨rfl, hl⟩

/-! ### The steps -/

/-- Without a lookup in flight, any key may be the next. -/
theorem NameInv.rewant {wanted wanted' : Unit → UInt32 × UInt8} {names : NameState Caller Unit}
    (h : NameInv publications maxNames wanted names) (hidle : names.lookups () = .idle) :
    NameInv publications maxNames wanted' names :=
  { h with lookups := fun q => by rw [show names.lookups q = .idle from hidle]; trivial }

variable [DecidableEq Caller] {p : Caller} {names : NameState Caller Unit}

/-- A publisher's step. -/
theorem LabelInv.publish (h : LabelInv publications maxNames s)
    (hs : s.names.publishStep maxNames (publications p) p = some names) :
    LabelInv publications maxNames (s.setNames names) ∧ LabelsKept publications s (s.setNames names) := by
  obtain ⟨hnames, hkept⟩ := h.names.publishStep hs
  have hlooks := publishStep_lookups hs
  have hclaims := claimsKept_publishStep h.names h.claims hs
  have hstep : LabelsKept publications s (s.setNames names) :=
    { kept := hkept
      fresh := fun i c _ hf => ⟨hf.hits, fun req todo hpc hn => by
        rw [show (s.setNames names).names.lookups = s.names.lookups from hlooks]
        exact hf.looking req todo hpc hn⟩
      told := fun _ _ _ _ ht => ht }
  refine ⟨?_, hstep⟩
  exact
    { names := hnames
      claims := hclaims.claims
      quiet := fun hq => by
        rw [show (s.setNames names).names.lookups = s.names.lookups from hlooks]
        exact h.quiet hq
      asks := h.asks
      begun := h.begun
      wf := h.wf
      bounded := h.bounded.trans hclaims.generation
      cached := fun req label hfix hhit => (h.cached req label hfix hhit).kept hkept
      given := fun e he => by
        have hg := h.given e he
        cases hfix : e.1.fixed with
        | some label => rw [hfix] at hg; exact hg
        | none => rw [hfix] at hg; exact hg.kept hkept
      fresh := fun i c hc hd hgen => by
        -- the generation has not moved, so the claimant was through before
        have hsame : names.generation = s.names.generation :=
          Nat.le_antisymm (hgen ▸ h.bounded) hclaims.generation
        obtain ⟨hc', hd'⟩ := hclaims.bumped i c hc hd hsame
        exact hstep.fresh i c (published_of_done h.names hc' hd') (h.fresh i c hc' hd' (hgen.trans hsame)) }

omit [DecidableEq Caller] in
/-- A step of the collector on its own state, between lookups: it caches nothing new, and gives labels that are fixed or
cached. -/
theorem LabelInv.local (h : LabelInv publications maxNames s) (hidle : s.names.lookups () = .idle)
    (hn : s'.names = s.names) (hwf : s'.pointNames.WF ∧ s'.stageNames.WF)
    (hb : s'.cachedGeneration ≤ s.names.generation)
    (hasks : ∀ req todo, s'.pc = .lookup req todo → req.fixed = none)
    (hbegun : ∀ todo, s'.pc = .refresh todo → s'.resolved = [])
    (hhit : ∀ req label, s'.hit req = some label → s.hit req = some label)
    (hgen : s'.cachedGeneration = s.names.generation →
      s.cachedGeneration = s.names.generation ∨ ∀ req, s'.hit req = none)
    (hgiven : ∀ e ∈ s'.resolved, e ∈ s.resolved ∨ match e.1.fixed with
      | some label => e.2 = label
      | none => s.hit e.1 = some e.2) :
    LabelInv publications maxNames s' ∧ LabelsKept publications s s' := by
  have hstep : LabelsKept publications s s' :=
    { kept := fun j => by rw [hn]; exact Kept.refl _
      fresh := fun i c _ hf =>
        { hits := fun req label hfix hnamed hl => hf.hits req label hfix hnamed (hhit req label hl)
          looking := fun req todo _ _ => by rw [hn, hidle]; trivial }
      told := fun i c _ hf ht e he hfix hnamed => by
        rcases hgiven e he with hold | hnew
        · exact ht e hold hfix hnamed
        · rw [hfix] at hnew
          exact hf.hits e.1 e.2 hfix hnamed hnew }
  refine ⟨?_, hstep⟩
  exact
    { names := by rw [hn]; exact NameInv.rewant h.names hidle
      claims := by rw [hn]; exact h.claims
      quiet := fun _ => by rw [hn]; exact hidle
      asks := hasks
      begun := hbegun
      wf := hwf
      bounded := by rw [hn]; exact hb
      cached := fun req label hfix hl => by rw [hn]; exact h.cached req label hfix (hhit req label hl)
      given := fun e he => by
        rw [hn]
        rcases hgiven e he with hold | hnew
        · exact h.given e hold
        · cases hfix : e.1.fixed with
          | some label => rw [hfix] at hnew; exact hnew
          | none => rw [hfix] at hnew; exact h.cached e.1 e.2 hfix hnew
      fresh := fun i c hc hd hg => by
        rw [hn] at hc hd hg
        rcases hgen hg with hold | hnone
        · exact hstep.fresh i c (published_of_done h.names hc hd) (h.fresh i c hc hd hold)
        · exact
            { hits := fun req label _ _ hl => by rw [hnone req] at hl; cases hl
              looking := fun req todo _ _ => by rw [hn, hidle]; trivial } }

omit [DecidableEq Caller] in
theorem lookupStep_generation {want : UInt64} {ns ns' : NameState Caller Unit}
    (hs : ns.lookupStep maxNames want () = some ns') : ns'.generation = ns.generation := by
  unfold NameState.lookupStep at hs
  cases hpc : ns.lookups () <;> rw [hpc] at hs <;> simp only at hs
  all_goals try split at hs
  all_goals try split at hs
  all_goals try split at hs
  all_goals cases hs
  all_goals rfl

omit [DecidableEq Caller] in
/-- A load of the lookup in flight. -/
theorem LabelInv.look (h : LabelInv publications maxNames s) {req : LabelRequest} {todo : List LabelRequest}
    (hpc : s.pc = .lookup req todo)
    (hs : s.names.lookupStep maxNames (nameKey req.named.1 req.named.2 + 1) () = some names) :
    LabelInv publications maxNames (s.setNames names) ∧ LabelsKept publications s (s.setNames names) := by
  have hwanted : s.wanted () = req.named := by
    unfold LabelState.wanted
    rw [hpc]
  obtain ⟨hslots, hpubs, -⟩ := lookupStep_frame hs
  have hgen := lookupStep_generation hs
  rw [← hwanted] at hs
  have hkept : ∀ j, Kept (s.names.slots j) (names.slots j) := fun j => by rw [hslots]; exact Kept.refl _
  have hstep : LabelsKept publications s (s.setNames names) :=
    { kept := hkept
      fresh := fun i c hp hf => ⟨hf.hits, fun req' todo' hpc' hnamed => by
        have hreq : req' = req := by
          have := hpc.symm.trans hpc'
          cases this
          rfl
        have hheads := hf.looking req' todo' hpc' hnamed
        refine h.names.headsFor ?_ hp.1 hheads hs
        rw [hwanted, ← hreq, hnamed]
        exact hp.2⟩
      told := fun _ _ _ _ ht => ht }
  refine ⟨?_, hstep⟩
  exact
    { names := h.names.lookupStep hs
      claims := by rw [show (s.setNames names).names = names from rfl, hslots, hpubs]; exact h.claims
      quiet := fun hq => absurd hpc (hq req todo)
      asks := h.asks
      begun := h.begun
      wf := h.wf
      bounded := by rw [show (s.setNames names).names = names from rfl, hgen]; exact h.bounded
      cached := fun req label hfix hhit => (h.cached req label hfix hhit).kept hkept
      given := fun e he => by
        have hg := h.given e he
        cases hfix : e.1.fixed with
        | some label => rw [hfix] at hg; exact hg
        | none => rw [hfix] at hg; exact hg.kept hkept
      fresh := fun i c hc hd hg => by
        have hc' : (s.names.slots i).claimant = some c := by rw [← hslots]; exact hc
        have hd' : s.names.publishers c = .done true := by rw [← hpubs]; exact hd
        have hg' : s.cachedGeneration = s.names.generation := hg.trans hgen
        exact hstep.fresh i c (published_of_done h.names hc' hd') (h.fresh i c hc' hd' hg') }

omit [DecidableEq Caller] in
theorem looked_same (req : LabelRequest) (nm : List UInt8) (todo : List LabelRequest) :
    (s.looked req nm todo).names = { s.names with lookups := fun _ => .idle } ∧
      (s.looked req nm todo).cachedGeneration = s.cachedGeneration ∧
      (s.looked req nm todo).resolved = s.resolved ++ [(req, req.labelOf nm)] ∧
      (s.looked req nm todo).pc = .resolve todo := by
  cases req <;> exact ⟨rfl, rfl, rfl, rfl⟩

omit [DecidableEq Caller] in
/-- A lookup ends: its result is labelled, kept and given. -/
theorem LabelInv.looked (h : LabelInv publications maxNames s) {req : LabelRequest} {todo : List LabelRequest}
    (hpc : s.pc = .lookup req todo) {nm : List UInt8} (hdone : s.names.lookups () = .done nm) :
    LabelInv publications maxNames (s.looked req nm todo) ∧ LabelsKept publications s (s.looked req nm todo) := by
  obtain ⟨hn, hg, hr, hpc'⟩ := looked_same (s := s) req nm todo
  have hfix := h.asks req todo hpc
  obtain ⟨hwf, hhit⟩ := hit_keep (s := s.setNames { s.names with lookups := fun _ => .idle }) h.wf req
    (req.labelOf nm)
  have hhit' : ∀ req' label', (s.looked req nm todo).hit req' = some label' →
      s.hit req' = some label' ∨ req' = req ∧ label' = req.labelOf nm := hhit
  have hvalid : ValidLabel publications s.names req (req.labelOf nm) := by
    have hl := h.names.lookups ()
    have hwanted : s.wanted () = req.named := by
      unfold LabelState.wanted
      rw [hpc]
    rw [hdone, hwanted] at hl
    rcases hl with rfl | ⟨i, c, hword, hc, rfl⟩
    · exact Or.inl (by cases req <;> simp [LabelRequest.labelOf])
    · have hwant := ((h.names.slots i).whole (isWant_nameKey _ _) hword hc).1
      exact Or.inr ⟨i, c, ⟨hc, by rw [hword, hwant]⟩, named_of_want hwant.symm, rfl⟩
  have hkept : ∀ j, Kept (s.names.slots j) ((s.looked req nm todo).names.slots j) := fun j => by
    rw [hn]
    exact Kept.refl _
  have hname : ∀ i c, Fresh publications i c s → req.named = (publications c).named →
      nm = (publications c).name := by
    intro i c hf hnamed
    have hheads := hf.looking req todo hpc hnamed
    rw [hdone] at hheads
    exact hheads
  have hstep : LabelsKept publications s (s.looked req nm todo) :=
    { kept := hkept
      fresh := fun i c _ hf =>
        { hits := fun req' label' hfix' hnamed hl => by
            rcases hhit' req' label' hl with hold | ⟨rfl, rfl⟩
            · exact hf.hits req' label' hfix' hnamed hold
            · rw [hname i c hf hnamed]
          looking := fun req' todo' hpc'' => by rw [hpc'] at hpc''; cases hpc'' }
      told := fun i c _ hf ht e he hfix' hnamed => by
        rw [hr] at he
        rcases List.mem_append.mp he with he | he
        · exact ht e he hfix' hnamed
        · cases List.mem_singleton.mp he
          rw [hname i c hf hnamed] }
  refine ⟨?_, hstep⟩
  exact
    { names := by rw [hn]; exact { h.names with lookups := fun _ => trivial }
      claims := by rw [hn]; exact h.claims
      quiet := fun _ => by rw [hn]
      asks := fun req' todo' hpc'' => by rw [hpc'] at hpc''; cases hpc''
      begun := fun todo' hpc'' => by rw [hpc'] at hpc''; cases hpc''
      wf := hwf
      bounded := by rw [hn, hg]; exact h.bounded
      cached := fun req' label' hfix' hl => by
        refine ValidLabel.kept ?_ hkept
        rcases hhit' req' label' hl with hold | ⟨rfl, rfl⟩
        · exact h.cached req' label' hfix' hold
        · exact hvalid
      given := fun e he => by
        rw [hr] at he
        rcases List.mem_append.mp he with he | he
        · have hg := h.given e he
          cases hfix' : e.1.fixed with
          | some label => rw [hfix'] at hg; exact hg
          | none => rw [hfix'] at hg; exact hg.kept hkept
        · cases List.mem_singleton.mp he
          rw [hfix]
          exact hvalid.kept hkept
      fresh := fun i c hc hd hgen => by
        rw [hn] at hc hd hgen
        rw [hg] at hgen
        exact hstep.fresh i c (published_of_done h.names hc hd) (h.fresh i c hc hd hgen) }

omit [DecidableEq Caller] in
/-- Emptying the caches, or leaving them, under the generation just read. -/
theorem refreshNameCache_cases (h : s.pointNames.WF ∧ s.stageNames.WF) :
    s.refreshNameCache.names = s.names ∧ s.refreshNameCache.pc = s.pc ∧ s.refreshNameCache.resolved = s.resolved ∧
      (s.refreshNameCache.pointNames.WF ∧ s.refreshNameCache.stageNames.WF) ∧
      s.refreshNameCache.cachedGeneration = s.names.generation ∧
      (s.cachedGeneration = s.names.generation ∧ s.refreshNameCache.hit = s.hit ∨
        ∀ req, s.refreshNameCache.hit req = none) := by
  unfold LabelState.refreshNameCache
  split
  · rename_i heq
    exact ⟨rfl, rfl, rfl, h, heq.symm, Or.inl ⟨heq.symm, rfl⟩⟩
  · refine ⟨rfl, rfl, rfl, ⟨OpenMap.wf_clear h.1, OpenMap.wf_clear h.2⟩, rfl, Or.inr fun req => ?_⟩
    cases req with
    | point p => exact OpenMap.find_clear h.1 _
    | stage p f t => exact OpenMap.find_clear h.2 _

omit [DecidableEq Caller] in
/-- A label that is fixed, or that the caches hold, is given without a lookup. -/
theorem LabelInv.give (h : LabelInv publications maxNames s) (hidle : s.names.lookups () = .idle)
    (req : LabelRequest) (label : List UInt8) (todo : List LabelRequest)
    (hlabel : match req.fixed with
      | some l => label = l
      | none => s.hit req = some label) :
    LabelInv publications maxNames (s.give req label todo) ∧ LabelsKept publications s (s.give req label todo) := by
  refine h.local hidle rfl h.wf h.bounded (fun _ _ hl => by cases hl) (fun _ hl => by cases hl) (fun _ _ hl => hl)
    Or.inl fun e he => ?_
  rcases List.mem_append.mp he with he | he
  · exact Or.inl he
  · cases List.mem_singleton.mp he
    exact Or.inr hlabel

omit [DecidableEq Caller] in
theorem LabelInv.collect (h : LabelInv publications maxNames s) (hs : s.collectStep maxNames = some s') :
    LabelInv publications maxNames s' ∧ LabelsKept publications s s' := by
  unfold LabelState.collectStep at hs
  cases hpc : s.pc with
  | idle => rw [hpc] at hs; cases hs
  | refresh todo =>
      rw [hpc] at hs
      cases hs
      have hidle := h.quiet (by rw [hpc]; exact nofun)
      obtain ⟨hn, -, hr, hwf, hg, hcases⟩ := refreshNameCache_cases h.wf
      refine h.local hidle hn hwf (Nat.le_of_eq hg) (fun _ _ hl => by cases hl) (fun _ hl => by cases hl) ?_
        (fun _ => ?_) fun e he => ?_
      · intro req label hl
        rcases hcases with ⟨-, hhit⟩ | hnone
        · rw [← hhit]; exact hl
        · have hnone' : ({ s.refreshNameCache with pc := .resolve todo } : LabelState Caller).hit req = none := hnone req
          rw [hnone'] at hl
          cases hl
      · rcases hcases with ⟨heq, -⟩ | hnone
        · exact Or.inl heq
        · exact Or.inr hnone
      · exact Or.inl (by rw [← hr]; exact he)
  | resolve todo =>
      rw [hpc] at hs
      have hidle := h.quiet (by rw [hpc]; exact nofun)
      cases todo with
      | nil =>
          cases hs
          exact h.local hidle rfl h.wf h.bounded (fun _ _ hl => by cases hl) (fun _ hl => by cases hl) (fun _ _ hl => hl)
            Or.inl fun e he => Or.inl he
      | cons req todo =>
          have hgive := h.give hidle req
          simp only at hs
          cases hfix : req.fixed with
          | some label =>
              rw [hfix] at hs hgive
              cases hs
              exact hgive label todo rfl
          | none =>
              rw [hfix] at hs hgive
              simp only at hs
              cases hhit : s.hit req with
              | some label =>
                  rw [hhit] at hs
                  cases hs
                  exact hgive label todo hhit
              | none =>
                  rw [hhit] at hs
                  cases hs
                  exact h.local hidle rfl h.wf h.bounded (fun _ _ hl => by cases hl; exact hfix)
                    (fun _ hl => by cases hl) (fun _ _ hl => hl) Or.inl fun e he => Or.inl he
  | lookup req todo =>
      rw [hpc] at hs
      simp only at hs
      cases hl : s.names.lookups () with
      | done nm =>
          rw [hl] at hs
          cases hs
          exact h.looked hpc hl
      | _ =>
          rw [hl] at hs
          obtain ⟨names, hnames, rfl⟩ := Option.map_eq_some_iff.mp hs
          exact h.look hpc hnames

variable {maxStages : UInt32}

theorem LabelInv.step (h : LabelInv publications maxNames s) {a : LabelAction Caller}
    (hs : (labelSystem maxNames maxStages publications).step a s = some s') :
    LabelInv publications maxNames s' ∧ LabelsKept publications s s' := by
  cases a with
  | publish p =>
      obtain ⟨names, hnames, rfl⟩ := Option.map_eq_some_iff.mp hs
      exact h.publish hnames
  | start =>
      simp only [labelSystem] at hs
      split at hs
      · rename_i hpc
        cases hs
        have hidle := h.quiet (by rw [hpc]; exact nofun)
        have hnone : ∀ req, (s.started maxStages).hit req = none := fun req => by
          cases req with
          | point p => exact OpenMap.find_reset _ _
          | stage p f t => exact OpenMap.find_reset _ _
        exact h.local hidle rfl ⟨OpenMap.wf_reset _, OpenMap.wf_reset _⟩ (Nat.le_refl _)
          (fun _ _ hl => by rw [show (s.started maxStages).pc = s.pc from rfl, hpc] at hl; cases hl)
          (fun _ hl => by rw [show (s.started maxStages).pc = s.pc from rfl, hpc] at hl; cases hl)
          (fun req _ hl => by rw [hnone req] at hl; cases hl) (fun _ => Or.inr hnone) fun e he => Or.inl he
      · cases hs
  | flush todo =>
      simp only [labelSystem] at hs
      split at hs
      · rename_i hpc
        cases hs
        have hidle := h.quiet (by rw [hpc]; exact nofun)
        exact h.local hidle rfl h.wf h.bounded (fun _ _ hl => by cases hl) (fun _ _ => rfl) (fun _ _ hl => hl) Or.inl
          fun e he => by cases he
      · cases hs
  | collect => exact h.collect hs

theorem labelInv_reachable (hs : (labelSystem maxNames maxStages publications).Reachable s) :
    LabelInv publications maxNames s := by
  refine hs.invariant (I := LabelInv publications maxNames) ?_ fun _ _ _ h h' => (h.step h').1
  rintro s ⟨hfree, hidle, hlook, hpc, hres, hpoint, hstage, hgen⟩
  have hnone : ∀ req, s.hit req = none := fun req => by
    cases req with
    | point p => rw [LabelState.hit, hpoint]; exact OpenMap.find_reset _ _
    | stage p f t => rw [LabelState.hit, hstage]; exact OpenMap.find_reset _ _
  exact
    { names :=
        { slots := fun i => .free (hfree i).1 (hfree i).2
          range := fun i hu => absurd (hfree i).1 hu
          dense := fun _ j _ hu => absurd (hfree j).1 hu
          unique := fun i _ hu => absurd (hfree i).1 hu
          publishers := fun p => by rw [hidle]; trivial
          lookups := fun q => by rw [show s.names.lookups q = .idle from hlook]; trivial }
      claims := fun i c hc => by rw [(hfree i).2] at hc; cases hc
      quiet := fun _ => hlook
      asks := fun req todo hl => by rw [hpc] at hl; cases hl
      begun := fun todo hl => by rw [hpc] at hl; cases hl
      wf := by rw [hpoint, hstage]; exact ⟨OpenMap.wf_reset _, OpenMap.wf_reset _⟩
      bounded := Nat.le_of_eq hgen
      cached := fun req label _ hl => by rw [hnone req] at hl; cases hl
      given := fun e he => by rw [hres] at he; cases he
      fresh := fun i c hc => by rw [(hfree i).2] at hc; cases hc }

/-- Once a name is published and all agrees with it, all agrees with it along every run. -/
theorem agrees_runs (hs : (labelSystem maxNames maxStages publications).Reachable s) {i : Nat} {c : Caller}
    (hp : Published publications s.names i c) (hf : Fresh publications i c s) (ha : Agrees publications c s)
    (hr : (labelSystem maxNames maxStages publications).Runs s s') : Agrees publications c s' := by
  have hall : (labelSystem maxNames maxStages publications).Reachable s' ∧ Published publications s'.names i c ∧
      Fresh publications i c s' ∧ Agrees publications c s' := by
    induction hr with
    | refl => exact ⟨hs, hp, hf, ha⟩
    | step a _ h ih =>
        obtain ⟨hreach, hp', hf', ha'⟩ := ih
        have hstep := ((labelInv_reachable hreach).step h).2
        exact ⟨.step a hreach h, hp'.kept hstep.kept, hstep.fresh i c hp' hf', hstep.told i c hp' hf' ha'⟩
  exact hall.2.2.2

/-! ## The labels of a flush -/

theorem generated_ne_value (p : UInt32) (fromStep toStep : UInt8) :
    (LabelRequest.stage p fromStep toStep).generated ≠ ascii kValueStageName := by
  intro h
  have hhead := congrArg List.head? h
  have hstep : (ascii "step_").head? = some 115 := by decide
  have hvalue : (ascii kValueStageName).head? = some 118 := by decide
  simp only [LabelRequest.generated, List.append_assoc, List.head?_append, hstep, hvalue, Option.some_or] at hhead
  exact absurd hhead (by decide)

/-- The label of a row that is looked up: never the value label, and the generated one or the whole name. -/
theorem labelOf_cases (req : LabelRequest) (nm : List UInt8) :
    req.labelOf nm = req.generated ∨
      req.labelOf nm = nm ∧ ∀ p f t, req = .stage p f t → nm ≠ ascii kValueStageName := by
  cases req with
  | point p =>
      simp only [LabelRequest.labelOf]
      split
      · exact Or.inl rfl
      · exact Or.inr ⟨rfl, nofun⟩
  | stage p f t =>
      simp only [LabelRequest.labelOf]
      split
      · exact Or.inl rfl
      · rename_i hne
        exact Or.inr ⟨rfl, fun _ _ _ _ hv => hne (Or.inr hv)⟩

/-- A cached label is never stale. In every interleaving, wherever calls stop: once the call that published a name has
bumped the generation, every label that the next flush to read the generation resolves from the name, and every later
one, is the label of that name; a label is a fixed one, the generated one or a whole published name; and the label
`value` is on the value rows alone. -/
theorem cached_label_never_stale (hs : (labelSystem maxNames maxStages publications).Reachable s) :
    (∀ i c, (s.names.slots i).claimant = some c → s.names.publishers c = .done true →
      ∀ todo, s.pc = .refresh todo → ∀ s₁, (labelSystem maxNames maxStages publications).step .collect s = some s₁ →
      ∀ s', (labelSystem maxNames maxStages publications).Runs s₁ s' → ∀ e ∈ s'.resolved, e.1.fixed = none →
        e.1.named = ((publications c).point, (publications c).step) → e.2 = e.1.labelOf (publications c).name) ∧
    (∀ e ∈ s.resolved, match e.1.fixed with
      | some label => e.2 = label
      | none => e.2 = e.1.generated ∨ ∃ i c, (s.names.slots i).claimant = some c ∧
          (s.names.slots i).keyPlusOne = (publications c).want ∧
          e.1.named = ((publications c).point, (publications c).step) ∧ e.2 = (publications c).name) ∧
    ∀ p fromStep toStep label, (LabelRequest.stage p fromStep toStep, label) ∈ s.resolved →
      (label = ascii kValueStageName ↔ isValueStage fromStep toStep = true) := by
  have h := labelInv_reachable hs
  refine ⟨fun i c hc hd todo hpc s₁ hstep s' hr e he hfix hnamed => ?_, fun e he => ?_,
    fun p fromStep toStep label he => ?_⟩
  · have hreach := System.Reachable.step .collect hs hstep
    have hinv := labelInv_reachable hreach
    have hs₁ : s₁ = { s.refreshNameCache with pc := .resolve todo } := by
      have hstep' : s.collectStep maxNames = some s₁ := hstep
      simp only [LabelState.collectStep, hpc, Option.some.injEq] at hstep'
      exact hstep'.symm
    obtain ⟨hn, -, hres, -, hgen, -⟩ := refreshNameCache_cases h.wf
    -- the flush has just read the generation that the bump moved
    have hc₁ : (s₁.names.slots i).claimant = some c := by rw [hs₁]; exact hn ▸ hc
    have hd₁ : s₁.names.publishers c = .done true := by rw [hs₁]; exact hn ▸ hd
    have hg₁ : s₁.cachedGeneration = s₁.names.generation := by rw [hs₁]; exact hgen.trans (by rw [hn])
    have hnone : s₁.resolved = [] := by rw [hs₁]; exact hres.trans (h.begun todo hpc)
    have hagrees : Agrees publications c s₁ := fun e he => by rw [hnone] at he; cases he
    exact agrees_runs hreach (published_of_done hinv.names hc₁ hd₁) (hinv.fresh i c hc₁ hd₁ hg₁) hagrees hr e he hfix
      hnamed
  · have hg := h.given e he
    cases hfix : e.1.fixed with
    | some label => rw [hfix] at hg; exact hg
    | none =>
        rw [hfix] at hg
        rcases hg with hg | ⟨i, c, hp, hnamed, hl⟩
        · exact Or.inl hg
        · rcases labelOf_cases e.1 (publications c).name with hgen | ⟨hname, -⟩
          · exact Or.inl (hl.trans hgen)
          · exact Or.inr ⟨i, c, hp.1, hp.2, hnamed, hl.trans hname⟩
  · have hg := h.given _ he
    have htotal : ascii "total" ≠ ascii kValueStageName := by decide
    simp only [LabelRequest.fixed] at hg
    by_cases ht : fromStep = kBeginStep ∧ toStep = kBeginStep
    · rw [if_pos ht] at hg
      have hnot : isValueStage fromStep toStep ≠ true := by
        rw [ht.1, ht.2]
        decide
      exact ⟨fun hv => absurd (hg.symm.trans hv) htotal, fun hv => absurd hv hnot⟩
    · rw [if_neg ht] at hg
      by_cases hv : isValueStage fromStep toStep = true
      · rw [if_pos hv] at hg
        exact ⟨fun _ => hv, fun _ => hg⟩
      · rw [if_neg hv] at hg
        refine ⟨fun hl => absurd hl ?_, fun hv' => absurd hv' hv⟩
        rcases hg with hg | ⟨i, c, -, -, hl⟩
        · rw [show label = _ from hg]
          exact generated_ne_value p fromStep toStep
        · rw [show label = _ from hl]
          rcases labelOf_cases (.stage p fromStep toStep) (publications c).name with hgen | ⟨hname, hne⟩
          · rw [hgen]
            exact generated_ne_value p fromStep toStep
          · rw [hname]
            exact hne p fromStep toStep rfl

end Steps

/-- Two calls that disagree about one key. -/
def twoNames (short : Bool) : Publication 64 :=
  if short then ⟨7, 3, [65], by decide, by decide⟩ else ⟨7, 3, [65, 66], by decide, by decide⟩

/-- A transition is labelled while its end is unnamed, the name is published, and the next flush labels it again. -/
def lateName : List (LabelAction Bool) :=
  [.flush [.stage 7 1 3]] ++ List.replicate 10 .collect ++ List.replicate 8 (.publish false) ++ [.flush [.stage 7 1 3]]

theorem cached_label_never_stale_lateName :
    ∃ s s₁ s' : LabelState Bool, s.stageNames.find (stageKey 7 1 3) = some (ascii "step_1->3") ∧
      (labelSystem 4 2 twoNames).step .collect s = some s₁ ∧ (labelSystem 4 2 twoNames).Runs s₁ s' ∧
      s'.resolved.map Prod.fst = [.stage 7 1 3] ∧
      ∀ e ∈ s'.resolved, e.1.fixed = none → e.1.named = ((7 : UInt32), (3 : UInt8)) → e.2 = e.1.labelOf [65, 66] := by
  let M := labelSystem 4 2 twoNames
  let s₀ : LabelState Bool :=
    ⟨⟨fun _ => ⟨0, fun _ => 0, none⟩, 0, fun _ => .idle, fun _ => .idle⟩, OpenMap.reset 2, OpenMap.reset 2, 0, .idle, []⟩
  have hinit : M.Init s₀ := ⟨fun _ => ⟨rfl, rfl⟩, fun _ => rfl, rfl, rfl, rfl, rfl, rfl, rfl⟩
  obtain ⟨s, hs⟩ := Option.isSome_iff_exists.mp (by decide : (M.run lateName s₀).isSome = true)
  have hend : (M.run lateName s₀).map (fun s => (s.stageNames.find (stageKey 7 1 3), (s.names.slots 0).claimant,
      s.names.publishers false, s.pc)) =
      some (some (ascii "step_1->3"), some false, .done true, .refresh [.stage 7 1 3]) := by decide
  rw [hs] at hend
  obtain ⟨hold, hclaim, hdone, hpc⟩ := by simpa using hend
  have hlast : ((M.run lateName s₀).bind fun s => (M.step .collect s).bind (M.run (List.replicate 7 .collect))).map
      (fun s => s.resolved.map Prod.fst) = some [.stage 7 1 3] := by decide
  rw [hs, Option.bind_some] at hlast
  obtain ⟨s', hs', hres⟩ := Option.map_eq_some_iff.mp hlast
  obtain ⟨s₁, hs₁, hrun⟩ := Option.bind_eq_some_iff.mp hs'
  exact ⟨s, s₁, s', hold, hs₁, .of_run hrun, hres,
    (cached_label_never_stale ((System.Reachable.init hinit).run hs)).1 0 false hclaim hdone _ hpc s₁ hs₁ s'
      (.of_run hrun)⟩

end SlickPerfmon
