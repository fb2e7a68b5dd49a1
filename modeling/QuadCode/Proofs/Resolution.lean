import QuadCode.Proofs.Linking

/-!
# What linking answers

Linking is described by the entries of a fragment alone, whatever they are and
whoever put them together. It refuses a label that is placed twice before it
refuses a label that is not placed, and each time it names the first. If there is
nothing to refuse, each line of the finished program is the instruction that
stands there, with its target replaced by a line number.

* `Instr.retarget` replaces the jump target of an instruction and nothing else;
* `Fragment.PlacedAgain`, `Fragment.Dangling`: the labels that are named;
* `Fragment.Numbers`: the line number of a label counts the instructions before
  its marker;
* `Fragment.link_eq_ok_iff`: when linking succeeds, and with what;
* `Assembly`: linking by a pass over the entries, with a table of the labels, and
  a pass over the instructions. `Assembly.Collects` is what the first pass keeps.

The main statement is `link_answers_exactly`.
-/

namespace QuadCode

/-! ### Replacing targets -/

namespace Instr

variable {α β γ : Type}

/-- Replace the jump target, if there is one, and keep all else. -/
def retarget (f : α → β) : Instr α → Instr β
  | copy ty dst src => copy ty dst src
  | read ty dst => read ty dst
  | print ty src => print ty src
  | arith op ty dst lhs rhs => arith op ty dst lhs rhs
  | compare op ty dst lhs rhs => compare op ty dst lhs rhs
  | convert ty dst src => convert ty dst src
  | jump target => jump (f target)
  | jumpIfZero target cond => jumpIfZero (f target) cond
  | halt => halt

@[simp] theorem retarget_halt (f : α → β) : (halt : Instr α).retarget f = halt := rfl

theorem retarget_retarget (f : α → β) (g : β → γ) (i : Instr α) :
    (i.retarget f).retarget g = i.retarget (g ∘ f) := by
  cases i <;> rfl

theorem retarget_congr {f g : α → β} {i : Instr α} (h : ∀ l, i.target? = some l → f l = g l) :
    i.retarget f = i.retarget g := by
  cases i with
  | jump l => rw [retarget, retarget, h l rfl]
  | jumpIfZero l cond => rw [retarget, retarget, h l rfl]
  | _ => rfl

/-- If the target can be resolved, it is replaced by what it is resolved to. -/
theorem mapTarget_eq_retarget {f : α → Option β} {g : α → β} {i : Instr α}
    (h : ∀ l, i.target? = some l → f l = some (g l)) : i.mapTarget f = some (i.retarget g) := by
  cases i with
  | jump l => simp [mapTarget, retarget, h l rfl]
  | jumpIfZero l cond => simp [mapTarget, retarget, h l rfl]
  | _ => rfl

theorem ne_none_of_mapTarget {f : α → Option β} {i : Instr α} {j : Instr β}
    (h : i.mapTarget f = some j) {l : α} (hl : i.target? = some l) : f l ≠ none := by
  intro hnone
  cases i <;> simp only [target?, reduceCtorEq, Option.some.injEq] at hl
  all_goals
    subst hl
    simp [mapTarget, hnone] at h

/-- A target without a marker is named. -/
theorem mapTarget_resolve_error {items : List Item} {i : Instr Label} {l : Label}
    (hi : i.target? = some l) (hl : l ∉ labelsIn items) :
    i.mapTarget (Label.resolve items) = .error (.unplacedLabel l.text) := by
  have hres : Label.resolve items l = .error (.unplacedLabel l.text) := by
    rw [Label.resolve, Label.addressIn?_eq_none_iff.2 hl]
  cases i <;> simp only [target?, reduceCtorEq, Option.some.injEq] at hi
  all_goals
    subst hi
    rw [mapTarget, hres]
    rfl

end Instr

/-! ### First entries -/

theorem exists_first {α : Type} {p : α → Prop} {l : List α} (h : ∃ a ∈ l, p a) :
    ∃ before a after, l = before ++ a :: after ∧ p a ∧ ∀ b ∈ before, ¬ p b := by
  classical
  have hsome : (l.find? fun a => decide (p a)).isSome := by simpa using h
  obtain ⟨a, ha⟩ := Option.isSome_iff_exists.1 hsome
  obtain ⟨hp, before, after, he, hbefore⟩ := List.find?_eq_some_iff_append.1 ha
  refine ⟨before, a, after, he, of_decide_eq_true hp, fun b hb => ?_⟩
  simpa using hbefore b hb

/-- The first failure of a list of actions is the failure of all of them. -/
theorem mapM_error {ε α β : Type} {f : α → Except ε β} {before after : List α} {a : α} {e : ε}
    (hbefore : ∀ b ∈ before, ∃ c, f b = .ok c) (ha : f a = .error e) :
    (before ++ a :: after).mapM f = .error e := by
  induction before with
  | nil =>
    rw [List.nil_append, List.mapM_cons, ha]
    rfl
  | cons b before ih =>
    obtain ⟨⟨c, hc⟩, hbefore⟩ := List.forall_mem_cons.1 hbefore
    rw [List.cons_append, List.mapM_cons, hc, ih hbefore]
    rfl

/-- An entry that was seen before stands behind entries that are distinct and were not seen. -/
theorem exists_of_firstRepeatAfter {α : Type} [DecidableEq α] {seen l : List α} {a : α}
    (h : firstRepeatAfter seen l = some a) :
    ∃ before after, l = before ++ a :: after ∧ before.Nodup ∧ (∀ b ∈ before, b ∉ seen) ∧
      (a ∈ before ∨ a ∈ seen) := by
  induction l generalizing seen with
  | nil => cases h
  | cons b l ih =>
    rw [firstRepeatAfter] at h
    split_ifs at h with hb
    · obtain rfl := Option.some.inj h
      exact ⟨[], l, rfl, List.nodup_nil, by simp, Or.inr hb⟩
    · obtain ⟨before, after, rfl, hnodup, hseen, ha⟩ := ih h
      refine ⟨b :: before, after, rfl, ?_, ?_, ?_⟩
      · refine List.nodup_cons.2 ⟨fun hmem => ?_, hnodup⟩
        exact hseen b hmem (List.mem_cons_self ..)
      · refine List.forall_mem_cons.2 ⟨hb, fun c hc hcs => ?_⟩
        exact hseen c hc (List.mem_cons_of_mem _ hcs)
      · rcases ha with ha | ha
        · exact Or.inl (List.mem_cons_of_mem _ ha)
        · rcases List.mem_cons.1 ha with rfl | ha
          · exact Or.inl (List.mem_cons_self ..)
          · exact Or.inr ha

/-- A marker stands where its label stands among the labels. -/
theorem exists_mark_of_labelsIn {items : List Item} {before after : List Label} {l : Label}
    (h : labelsIn items = before ++ l :: after) :
    ∃ c d, items = c ++ .mark l :: d ∧ labelsIn c = before := by
  obtain ⟨c₁, rest, rfl, hc₁, hrest⟩ := List.filterMap_eq_append_iff.1 h
  obtain ⟨c₂, item, d, rfl, hc₂, hitem, -⟩ := List.filterMap_eq_cons_iff.1 hrest
  obtain rfl : item = .mark l := by
    cases item <;> simp_all [Item.label?]
  refine ⟨c₁ ++ c₂, d, by simp, ?_⟩
  rw [labelsIn_append, show labelsIn c₂ = [] from List.filterMap_eq_nil_iff.2 hc₂, List.append_nil]
  exact hc₁

/-! ### Linking -/

namespace Fragment

/-- `l` is the label of the first marker whose label was placed before it. -/
def PlacedAgain (f : Fragment) (l : Label) : Prop :=
  ∃ before after, f.items = before ++ .mark l :: after ∧ l ∈ labelsIn before ∧
    (labelsIn before).Nodup

/-- Every target of the instructions has a marker. -/
def Resolves (f : Fragment) (instrs : List (Instr Label)) : Prop :=
  ∀ i ∈ instrs, ∀ l, i.target? = some l → l ∈ f.labels

instance (f : Fragment) (instrs : List (Instr Label)) : Decidable (f.Resolves instrs) :=
  inferInstanceAs (Decidable (∀ i ∈ instrs, ∀ l ∈ i.target?, l ∈ f.labels))

/-- `l` is the target of the first jump to a label without a marker. -/
def Dangling (f : Fragment) (l : Label) : Prop :=
  ∃ before i after, f.instrs = before ++ i :: after ∧ i.target? = some l ∧ l ∉ f.labels ∧
    f.Resolves before

/-- The number of a label counts the instructions before its marker. -/
def Numbers (f : Fragment) (address : Label → ℕ) : Prop :=
  ∀ before l after, f.items = before ++ .mark l :: after → address l = (instrsIn before).length

/-- The line number of a label that is placed. -/
def addressOf (f : Fragment) (l : Label) : ℕ := (l.addressIn? f.items).getD 0

variable {f : Fragment} {signature : String} {x : Executable}

theorem addressIn?_eq_addressOf {l : Label} (hl : l ∈ f.labels) :
    l.addressIn? f.items = some (f.addressOf l) := by
  have hne : l.addressIn? f.items ≠ none := fun hnone => Label.addressIn?_eq_none_iff.1 hnone hl
  obtain ⟨n, hn⟩ := Option.ne_none_iff_exists'.1 hne
  rw [addressOf, hn, Option.getD_some]

theorem numbers_addressOf (h : f.labels.Nodup) : f.Numbers f.addressOf := by
  intro before l after he
  rw [addressOf, Label.addressIn?_of_nodup h he, Option.getD_some, lineCount]

/-! #### Success -/

theorem mapTarget_of_resolves {instrs : List (Instr Label)} (h : f.Resolves instrs)
    {i : Instr Label} (hi : i ∈ instrs) :
    i.mapTarget (fun l => l.addressIn? f.items) = some (i.retarget f.addressOf) := by
  apply Instr.mapTarget_eq_retarget
  intro l hl
  exact addressIn?_eq_addressOf (h i hi l hl)

theorem link_eq_ok (hnodup : f.labels.Nodup) (h : f.Resolves f.instrs) (signature : String) :
    f.link signature = .ok ⟨f.instrs.map (Instr.retarget f.addressOf) ++ [.halt], signature⟩ := by
  refine link_ok_iff.2 ⟨hnodup, rfl, ?_⟩
  apply List.rel_append
  · rw [List.forall₂_map_right_iff, List.forall₂_same]
    exact fun i hi => mapTarget_of_resolves h hi
  · exact .cons rfl .nil

theorem resolves_of_link (h : f.link signature = .ok x) : f.Resolves f.instrs := by
  intro i hi l hl
  obtain ⟨k, hk⟩ := List.mem_iff_getElem?.1 (List.mem_append_left [.halt] hi)
  obtain ⟨j, hj, -⟩ := getElem?_of_link h hk
  by_contra hnot
  exact Instr.ne_none_of_mapTarget hj hl (Label.addressIn?_eq_none_iff.2 hnot)

/-- Linking succeeds if no label is placed twice and every target is placed. The finished program
has the instructions with their targets replaced, and a halt. -/
theorem link_eq_ok_iff :
    f.link signature = .ok x ↔ f.labels.Nodup ∧ f.Resolves f.instrs ∧
      x = ⟨f.instrs.map (Instr.retarget f.addressOf) ++ [.halt], signature⟩ := by
  constructor
  · intro h
    have hnodup : f.labels.Nodup := (link_ok_iff.1 h).1
    have hres : f.Resolves f.instrs := resolves_of_link h
    refine ⟨hnodup, hres, ?_⟩
    exact Except.ok.inj (h.symm.trans (link_eq_ok hnodup hres signature))
  · rintro ⟨hnodup, hres, rfl⟩
    exact link_eq_ok hnodup hres signature

/-! #### Failure -/

theorem link_of_firstRepeat? {l : Label} (h : firstRepeat? f.labels = some l) :
    f.link signature = .error (.duplicateLabel l.text) := by
  unfold link
  rw [h]
  rfl

/-- A label that is placed twice is refused, and the first one is named. -/
theorem exists_placedAgain (h : ¬ f.labels.Nodup) (signature : String) :
    ∃ l, f.PlacedAgain l ∧ f.link signature = .error (.duplicateLabel l.text) := by
  obtain ⟨l, hl⟩ := Option.ne_none_iff_exists'.1 (mt firstRepeat?_eq_none_iff.1 h)
  obtain ⟨before, after, he, hnodup, -, hmem⟩ := exists_of_firstRepeatAfter hl
  obtain ⟨c, d, hitems, rfl⟩ := exists_mark_of_labelsIn he
  refine ⟨l, ⟨c, d, hitems, ?_, hnodup⟩, link_of_firstRepeat? hl⟩
  exact hmem.resolve_right List.not_mem_nil

theorem exists_dangling (h : ¬ f.Resolves f.instrs) : ∃ l, f.Dangling l := by
  have hopen : ∃ i ∈ f.instrs, ∃ l, i.target? = some l ∧ l ∉ f.labels := by
    unfold Resolves at h
    push Not at h
    exact h
  obtain ⟨before, i, after, he, ⟨l, hl, hnot⟩, hbefore⟩ := exists_first hopen
  refine ⟨l, before, i, after, he, hl, hnot, fun j hj m hm => ?_⟩
  by_contra hmnot
  exact hbefore j hj ⟨m, hm, hmnot⟩

/-- A target without a marker is refused if no label is placed twice. -/
theorem link_of_dangling {l : Label} (hnodup : f.labels.Nodup) (h : f.Dangling l)
    (signature : String) : f.link signature = .error (.unplacedLabel l.text) := by
  obtain ⟨before, i, after, he, hl, hnot, hbefore⟩ := h
  have hlines : f.lines = before ++ i :: (after ++ [.halt]) := by
    rw [lines, he, List.append_assoc, List.cons_append]
  have hmap : f.lines.mapM (Instr.mapTarget (Label.resolve f.items)) =
      .error (.unplacedLabel l.text) := by
    rw [hlines]
    apply mapM_error
    · intro j hj
      exact ⟨_, Instr.mapTarget_resolve_ok_iff.2 (mapTarget_of_resolves hbefore hj)⟩
    · exact Instr.mapTarget_resolve_error hl hnot
  unfold link
  rw [firstRepeat?_eq_none_iff.2 hnodup, hmap]
  rfl

end Fragment

/-! ### Linking in two passes

One pass over the entries numbers the labels and sets the instructions aside, and stops at a label
that has a number. A second pass over the instructions replaces the targets. -/

/-- What the first pass has collected: the line numbers of the labels, the latest first, and the
instructions. -/
structure Assembly where
  addresses : List (Label × ℕ) := []
  pending : List (Instr Label) := []

namespace Assembly

/-- Take the next entry. The line number of a label is the number of instructions so far. -/
def step (a : Assembly) : Item → Except Fault Assembly
  | .mark l =>
    match a.addresses.lookup l with
    | some _ => .error (.duplicateLabel l.text)
    | none => .ok { a with addresses := (l, a.pending.length) :: a.addresses }
  | .instr i => .ok { a with pending := a.pending ++ [i] }

/-- The line number of a label that has to have one. -/
def resolve (a : Assembly) (l : Label) : Except Fault ℕ :=
  match a.addresses.lookup l with
  | some n => .ok n
  | none => .error (.unplacedLabel l.text)

/-- The two passes over a fragment that falls into a halt. -/
def ofFragment (f : Fragment) (signature : String) : Except Fault Executable := do
  let a ← (f.items ++ [Item.instr .halt]).foldlM step {}
  let instrs ← a.pending.mapM (Instr.mapTarget a.resolve)
  return { instrs, signature }

/-- The entries read so far are `items`. -/
structure Collects (a : Assembly) (items : List Item) : Prop where
  address : ∀ l, a.addresses.lookup l = l.addressIn? items
  pending : a.pending = instrsIn items

variable {a : Assembly} {items : List Item}

theorem collects_nil : Collects {} [] := ⟨fun _ => rfl, rfl⟩

namespace Collects

theorem step_instr (h : a.Collects items) (i : Instr Label) :
    ∃ b, a.step (.instr i) = .ok b ∧ b.Collects (items ++ [.instr i]) := by
  refine ⟨_, rfl, fun l => ?_, ?_⟩
  · rw [h.address, Label.addressIn?_append_eq_or]
    simp [Label.addressIn?]
  · simp [h.pending]

theorem step_mark (h : a.Collects items) {l : Label} (hl : l ∉ labelsIn items) :
    ∃ b, a.step (.mark l) = .ok b ∧ b.Collects (items ++ [.mark l]) := by
  have hnone : a.addresses.lookup l = none := by
    rw [h.address, Label.addressIn?_eq_none_iff.2 hl]
  refine ⟨{ a with addresses := (l, a.pending.length) :: a.addresses }, ?_, fun m => ?_, ?_⟩
  · simp only [step, hnone]
  · by_cases hm : m = l
    · subst hm
      rw [Label.addressIn?_of_mark hl, List.lookup_cons_self, h.pending, lineCount]
    · rw [List.lookup_cons, beq_eq_false_iff_ne.2 hm, Label.addressIn?_append_eq_or]
      simp [Label.addressIn?, Ne.symm hm, h.address]
  · simp [h.pending]

theorem step_mark_again (h : a.Collects items) {l : Label} (hl : l ∈ labelsIn items) :
    a.step (.mark l) = .error (.duplicateLabel l.text) := by
  have hne : a.addresses.lookup l ≠ none := fun hnone =>
    Label.addressIn?_eq_none_iff.1 ((h.address l).symm.trans hnone) hl
  obtain ⟨n, hn⟩ := Option.ne_none_iff_exists'.1 hne
  simp only [step, hn]

/-- The first pass reads all entries, or stops at the first label that was placed before. -/
theorem run (h : a.Collects items) {seen : List Label} (hseen : ∀ l, l ∈ seen ↔ l ∈ labelsIn items)
    (later : List Item) :
    match firstRepeatAfter seen (labelsIn later) with
    | some l => later.foldlM step a = .error (.duplicateLabel l.text)
    | none => ∃ b, later.foldlM step a = .ok b ∧ b.Collects (items ++ later) := by
  -- on the entries that are left; the ones before them only count through the labels in `seen`
  induction later generalizing a items seen with
  | nil => exact ⟨a, rfl, by rwa [List.append_nil]⟩
  | cons item later ih =>
    cases item with
    | instr i =>
      obtain ⟨b, hb, hcollects⟩ := h.step_instr i
      have hrest := ih hcollects (by simpa using hseen)
      rw [List.append_assoc, List.singleton_append] at hrest
      rw [labelsIn_instr, List.foldlM_cons, hb]
      exact hrest
    | mark l =>
      rw [labelsIn_mark, firstRepeatAfter, List.foldlM_cons]
      by_cases hl : l ∈ seen
      · rw [if_pos hl, h.step_mark_again ((hseen l).1 hl)]
        rfl
      · obtain ⟨b, hb, hcollects⟩ := h.step_mark fun hmem => hl ((hseen l).2 hmem)
        have hseen' : ∀ m, m ∈ l :: seen ↔ m ∈ labelsIn (items ++ [.mark l]) := by
          simp [hseen, or_comm]
        have hrest := ih hcollects hseen'
        rw [List.append_assoc, List.singleton_append] at hrest
        rw [if_neg hl, hb]
        exact hrest

end Collects

/-- The two passes do what linking does. -/
theorem ofFragment_eq_link (f : Fragment) (signature : String) :
    ofFragment f signature = f.link signature := by
  have hnone : ∀ l, l ∈ ([] : List Label) ↔ l ∈ labelsIn [] := by simp
  have hrun := collects_nil.run hnone (f.items ++ [.instr .halt])
  have hlabels : labelsIn (f.items ++ [.instr .halt]) = f.labels := by
    rw [labelsIn_append, labelsIn_instr, labelsIn_nil, List.append_nil]
    rfl
  rw [hlabels] at hrun
  unfold ofFragment Fragment.link firstRepeat?
  cases hrepeat : firstRepeatAfter [] f.labels with
  | some l =>
    rw [hrepeat] at hrun
    rw [hrun]
    rfl
  | none =>
    rw [hrepeat] at hrun
    obtain ⟨a, ha, hcollects⟩ := hrun
    have hpending : a.pending = f.lines := by
      rw [hcollects.pending, List.nil_append, instrsIn_append]
      rfl
    have hresolve : a.resolve = Label.resolve f.items := by
      funext l
      have haddress : a.addresses.lookup l = l.addressIn? f.items := by
        rw [hcollects.address, List.nil_append, Label.addressIn?_append_eq_or]
        simp [Label.addressIn?]
      cases hl : l.addressIn? f.items <;> simp only [resolve, Label.resolve, haddress, hl]
    rw [ha]
    simp only [bind, Except.bind, hpending, hresolve]

end Assembly

/-- Linking refuses the first label that is placed again. If there is none, it refuses the target of
the first jump to a label that is not placed. If there is none either, the finished program is the
instructions and a halt, where the number of a label replaces it as a target. The value of a
fragment has no part in this. The two passes give the same answer. -/
theorem link_answers_exactly (f : Fragment) (signature : String) :
    Assembly.ofFragment f signature = f.link signature ∧
    (¬ f.labels.Nodup →
      ∃ l, f.PlacedAgain l ∧ f.link signature = .error (.duplicateLabel l.text)) ∧
    (f.labels.Nodup → ¬ f.Resolves f.instrs →
      ∃ l, f.Dangling l ∧ f.link signature = .error (.unplacedLabel l.text)) ∧
    (f.labels.Nodup → f.Resolves f.instrs →
      ∃ address, f.Numbers address ∧ f.link signature =
        .ok ⟨f.instrs.map (Instr.retarget address) ++ [.halt], signature⟩) ∧
    ∀ value, Fragment.link { f with value } signature = f.link signature := by
  refine ⟨Assembly.ofFragment_eq_link f signature, fun h => Fragment.exists_placedAgain h signature,
    fun hnodup h => ?_, fun hnodup h => ?_, fun _ => rfl⟩
  · obtain ⟨l, hl⟩ := Fragment.exists_dangling h
    exact ⟨l, hl, Fragment.link_of_dangling hnodup hl signature⟩
  · exact ⟨f.addressOf, Fragment.numbers_addressOf hnodup, Fragment.link_eq_ok hnodup h signature⟩

/-- Code with two labels placed again and two labels not placed, code with two labels not placed,
and code with a label at its end. -/
theorem link_answers_exactly_several_faults :
    let repeated : Fragment := { items := [.instr (.jump ⟨7⟩), .mark ⟨1⟩, .mark ⟨0⟩, .mark ⟨0⟩,
      .mark ⟨1⟩, .instr (.jump ⟨8⟩)] }
    let missing : Fragment := { items := [.instr (.jump ⟨1⟩), .instr (.jump ⟨8⟩), .mark ⟨1⟩,
      .instr (.jumpIfZero ⟨7⟩ (.var "c"))] }
    let finished : Fragment := { items := [.mark ⟨5⟩, .instr (.jumpIfZero ⟨2⟩ (.var "c")),
      .instr (.jump ⟨5⟩), .mark ⟨2⟩] }
    (¬ repeated.labels.Nodup ∧ ∃ l, repeated.PlacedAgain l ∧
      repeated.link "main" = .error (.duplicateLabel l.text)) ∧
    (missing.labels.Nodup ∧ ¬ missing.Resolves missing.instrs ∧
      ∃ l, missing.Dangling l ∧ missing.link "main" = .error (.unplacedLabel l.text)) ∧
    finished.labels.Nodup ∧ finished.Resolves finished.instrs ∧
      ∃ address, finished.Numbers address ∧ finished.link "main" =
        .ok ⟨finished.instrs.map (Instr.retarget address) ++ [.halt], "main"⟩ := by
  intro repeated missing finished
  have hrepeated : ¬ repeated.labels.Nodup := by decide
  have hmissing : ¬ missing.Resolves missing.instrs := by decide
  have hfinished : finished.Resolves finished.instrs := by decide
  refine ⟨⟨hrepeated, (link_answers_exactly repeated "main").2.1 hrepeated⟩,
    ⟨by decide, hmissing, ?_⟩, by decide, hfinished, ?_⟩
  · exact (link_answers_exactly missing "main").2.2.1 (by decide) hmissing
  · exact (link_answers_exactly finished "main").2.2.2.1 (by decide) hfinished

end QuadCode
