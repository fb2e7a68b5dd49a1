import QuadCode.Proofs.Resolution

/-!
# Other labels

How labels are numbered does not matter to linking, as long as different labels
stay different. If the labels of a fragment are replaced, in its markers and in its
jumps, the finished program stays the same. A fragment that is refused is refused
for the same reason, and the label that is named is the new one.

* `Fragment.relabel` replaces labels, and `Fragment.mentioned` lists those that
  occur;
* `firstRepeatAfter_map`, `Label.addressIn?_relabel`: what linking asks about labels
  has the same answer for new labels;
* `link_relabel` is the main statement.
-/

namespace QuadCode

theorem Instr.target?_retarget {α β : Type} (g : α → β) (i : Instr α) :
    (i.retarget g).target? = i.target?.map g := by
  cases i <;> rfl

/-- The first repetition in a list is found at the same place after a map that keeps the entries
apart. -/
theorem firstRepeatAfter_map {α β : Type} [DecidableEq α] [DecidableEq β] {g : α → β}
    {seen l : List α} (h : Set.InjOn g {a | a ∈ seen ∨ a ∈ l}) :
    firstRepeatAfter (seen.map g) (l.map g) = (firstRepeatAfter seen l).map g := by
  induction l generalizing seen with
  | nil => rfl
  | cons a l ih =>
    have hmem : g a ∈ seen.map g ↔ a ∈ seen := by
      constructor
      · intro hga
        obtain ⟨b, hb, hba⟩ := List.mem_map.1 hga
        rwa [← h (Or.inl hb) (Or.inr List.mem_cons_self) hba]
      · exact List.mem_map_of_mem
    have hsub : {b | b ∈ a :: seen ∨ b ∈ l} ⊆ {b | b ∈ seen ∨ b ∈ a :: l} := by
      rintro b (hb | hb)
      · rcases List.mem_cons.1 hb with rfl | hb
        · exact Or.inr List.mem_cons_self
        · exact Or.inl hb
      · exact Or.inr (List.mem_cons_of_mem a hb)
    rw [List.map_cons, firstRepeatAfter, firstRepeatAfter]
    by_cases ha : a ∈ seen
    · rw [if_pos ha, if_pos (hmem.2 ha), Option.map_some]
    · rw [if_neg ha, if_neg (mt hmem.1 ha)]
      exact ih (h.mono hsub)

/-! ### Replacing labels -/

variable {σ : Label → Label}

/-- Replace the label of a marker or of a jump. -/
def Item.relabel (σ : Label → Label) : Item → Item
  | mark l => mark (σ l)
  | instr i => instr (i.retarget σ)

/-- Only the labels themselves tell which marker is that of a label. -/
theorem Label.addressIn?_relabel {items : List Item} {l : Label}
    (h : ∀ m ∈ labelsIn items, σ m = σ l → m = l) :
    (σ l).addressIn? (items.map (Item.relabel σ)) = l.addressIn? items := by
  induction items with
  | nil => rfl
  | cons item items ih =>
    cases item with
    | mark m =>
      obtain ⟨hm, hrest⟩ := List.forall_mem_cons.1 h
      have hiff : σ m = σ l ↔ m = l := ⟨hm, congrArg σ⟩
      rw [List.map_cons, Item.relabel, addressIn?, addressIn?, ih hrest]
      simp only [hiff]
    | instr i => rw [List.map_cons, Item.relabel, addressIn?, addressIn?, ih h]

namespace Fragment

/-- Replace the labels of the markers and of the jumps. -/
def relabel (σ : Label → Label) (f : Fragment) : Fragment :=
  { f with items := f.items.map (Item.relabel σ) }

/-- The labels that occur in a fragment, those of markers and those of jumps. -/
def mentioned (f : Fragment) : List Label := f.labels ++ f.instrs.filterMap Instr.target?

variable {f : Fragment} {l : Label}

@[simp] theorem labels_relabel (f : Fragment) : (f.relabel σ).labels = f.labels.map σ := by
  rw [labels, labels, relabel, List.filterMap_map, List.map_filterMap]
  congr 1
  funext item
  cases item <;> rfl

@[simp] theorem instrs_relabel (f : Fragment) :
    (f.relabel σ).instrs = f.instrs.map (Instr.retarget σ) := by
  rw [instrs, instrs, relabel, List.filterMap_map, List.map_filterMap]
  congr 1
  funext item
  cases item <;> rfl

theorem mem_mentioned_of_label (hl : l ∈ f.labels) : l ∈ f.mentioned :=
  List.mem_append_left _ hl

theorem mem_mentioned_of_target {i : Instr Label} (hi : i ∈ f.instrs) (hl : i.target? = some l) :
    l ∈ f.mentioned :=
  List.mem_append_right _ (List.mem_filterMap.2 ⟨i, hi, hl⟩)

theorem resolves_relabel {instrs : List (Instr Label)} (h : f.Resolves instrs) :
    (f.relabel σ).Resolves (instrs.map (Instr.retarget σ)) := by
  intro j hj m hm
  obtain ⟨i, hi, rfl⟩ := List.mem_map.1 hj
  rw [Instr.target?_retarget] at hm
  obtain ⟨l, hl, rfl⟩ := Option.map_eq_some_iff.1 hm
  rw [labels_relabel]
  exact List.mem_map_of_mem (h i hi l hl)

section Injective

variable (h : Set.InjOn σ {l | l ∈ f.mentioned})

include h

theorem mem_labels_relabel_iff (hl : l ∈ f.mentioned) :
    σ l ∈ (f.relabel σ).labels ↔ l ∈ f.labels := by
  rw [labels_relabel]
  constructor
  · intro hmem
    obtain ⟨m, hm, hml⟩ := List.mem_map.1 hmem
    rwa [← h (mem_mentioned_of_label hm) hl hml]
  · exact List.mem_map_of_mem

theorem firstRepeat?_relabel :
    firstRepeat? (f.relabel σ).labels = (firstRepeat? f.labels).map σ := by
  have hinj : Set.InjOn σ {l | l ∈ [] ∨ l ∈ f.labels} := by
    refine h.mono fun l hl => ?_
    exact mem_mentioned_of_label (hl.resolve_left List.not_mem_nil)
  rw [labels_relabel]
  exact firstRepeatAfter_map hinj

theorem nodup_labels_relabel (hnodup : f.labels.Nodup) : (f.relabel σ).labels.Nodup := by
  rw [← firstRepeat?_eq_none_iff, firstRepeat?_relabel h, firstRepeat?_eq_none_iff.2 hnodup,
    Option.map_none]

theorem addressOf_relabel (hl : l ∈ f.mentioned) :
    (f.relabel σ).addressOf (σ l) = f.addressOf l := by
  have haddress : (σ l).addressIn? (f.items.map (Item.relabel σ)) = l.addressIn? f.items :=
    Label.addressIn?_relabel fun m hm hml => h (mem_mentioned_of_label hm) hl hml
  unfold addressOf relabel
  rw [haddress]

/-- New labels are resolved to the same lines. -/
theorem retarget_relabel :
    (f.relabel σ).instrs.map (Instr.retarget (f.relabel σ).addressOf) =
      f.instrs.map (Instr.retarget f.addressOf) := by
  rw [instrs_relabel, List.map_map]
  refine List.map_congr_left fun i hi => ?_
  rw [Function.comp_apply, Instr.retarget_retarget]
  refine Instr.retarget_congr fun l hl => ?_
  exact addressOf_relabel h (mem_mentioned_of_target hi hl)

theorem dangling_relabel (hl : f.Dangling l) : (f.relabel σ).Dangling (σ l) := by
  obtain ⟨before, i, after, he, htarget, hnot, hbefore⟩ := hl
  have hi : i ∈ f.instrs := by simp [he]
  refine ⟨before.map (Instr.retarget σ), i.retarget σ, after.map (Instr.retarget σ), ?_, ?_, ?_,
    resolves_relabel hbefore⟩
  · rw [instrs_relabel, he, List.map_append, List.map_cons]
  · rw [Instr.target?_retarget, htarget, Option.map_some]
  · rwa [mem_labels_relabel_iff h (mem_mentioned_of_target hi htarget)]

end Injective

end Fragment

/-- Other labels make no difference to linking if different labels stay different: the finished
program is the same, or there is the same fault, which names the new label. -/
theorem link_relabel (f : Fragment) (σ : Label → Label)
    (h : Set.InjOn σ {l | l ∈ f.mentioned}) (signature : String) :
    (∃ x, f.link signature = .ok x ∧ (f.relabel σ).link signature = .ok x) ∨
    (∃ l ∈ f.mentioned, f.link signature = .error (.duplicateLabel l.text) ∧
      (f.relabel σ).link signature = .error (.duplicateLabel (σ l).text)) ∨
    ∃ l ∈ f.mentioned, f.link signature = .error (.unplacedLabel l.text) ∧
      (f.relabel σ).link signature = .error (.unplacedLabel (σ l).text) := by
  by_cases hnodup : f.labels.Nodup
  · have hnodup' := Fragment.nodup_labels_relabel h hnodup
    by_cases hres : f.Resolves f.instrs
    · -- nothing is refused
      have hres' : (f.relabel σ).Resolves (f.relabel σ).instrs := by
        rw [Fragment.instrs_relabel]
        exact Fragment.resolves_relabel hres
      refine Or.inl ⟨_, Fragment.link_eq_ok hnodup hres signature, ?_⟩
      rw [Fragment.link_eq_ok hnodup' hres' signature, Fragment.retarget_relabel h]
    · -- a target has no marker
      obtain ⟨l, hl⟩ := Fragment.exists_dangling hres
      have hl' := Fragment.dangling_relabel h hl
      refine Or.inr (Or.inr ⟨l, ?_, Fragment.link_of_dangling hnodup hl signature,
        Fragment.link_of_dangling hnodup' hl' signature⟩)
      obtain ⟨before, i, after, he, htarget, -, -⟩ := hl
      exact Fragment.mem_mentioned_of_target (by simp [he]) htarget
  · -- a label is placed again
    obtain ⟨l, hl⟩ := Option.ne_none_iff_exists'.1 (mt firstRepeat?_eq_none_iff.1 hnodup)
    have hl' : firstRepeat? (f.relabel σ).labels = some (σ l) := by
      rw [Fragment.firstRepeat?_relabel h, hl, Option.map_some]
    refine Or.inr (Or.inl ⟨l, ?_, Fragment.link_of_firstRepeat? hl,
      Fragment.link_of_firstRepeat? hl'⟩)
    obtain ⟨before, after, he, -⟩ := exists_of_firstRepeatAfter hl
    exact Fragment.mem_mentioned_of_label (by simp [he])

/-- The last digit tells apart the labels of code that can be linked, of code with two labels placed
again and of code with two labels not placed, but not all labels. -/
theorem link_relabel_last_digit :
    let σ : Label → Label := fun l => ⟨l.index % 10⟩
    let finished : Fragment := { items := [.mark ⟨15⟩, .instr (.jumpIfZero ⟨22⟩ (.var "c")),
      .instr (.jump ⟨15⟩), .mark ⟨22⟩] }
    let repeated : Fragment := { items := [.instr (.jump ⟨37⟩), .mark ⟨41⟩, .mark ⟨10⟩, .mark ⟨10⟩,
      .mark ⟨41⟩] }
    let missing : Fragment := { items := [.instr (.jump ⟨41⟩), .instr (.jump ⟨18⟩), .mark ⟨41⟩,
      .instr (.jumpIfZero ⟨7⟩ (.var "c"))] }
    σ ⟨15⟩ = σ ⟨5⟩ ∧
    (∃ x, finished.link "main" = .ok x ∧ (finished.relabel σ).link "main" = .ok x) ∧
    (repeated.link "main" = .error (.duplicateLabel "_L10") ∧
      (repeated.relabel σ).link "main" = .error (.duplicateLabel "_L0")) ∧
    missing.link "main" = .error (.unplacedLabel "_L18") ∧
      (missing.relabel σ).link "main" = .error (.unplacedLabel "_L8") := by
  intro σ finished repeated missing
  have hinj : ∀ f ∈ [finished, repeated, missing], Set.InjOn σ {l | l ∈ f.mentioned} := by
    have hall : ∀ f ∈ [finished, repeated, missing], ∀ l ∈ f.mentioned, ∀ m ∈ f.mentioned,
        σ l = σ m → l = m := by decide
    exact fun f hf l hl m hm => hall f hf l hl m hm
  refine ⟨rfl, ?_, ⟨rfl, ?_⟩, rfl, ?_⟩
  · rcases link_relabel finished σ (hinj _ (by simp)) "main" with hx | ⟨l, -, hl, -⟩ | ⟨l, -, hl, -⟩
    · exact hx
    · cases hl
    · cases hl
  · have hnamed : ∀ l ∈ repeated.mentioned,
        repeated.link "main" = .error (.duplicateLabel l.text) → (σ l).text = "_L0" := by decide
    rcases link_relabel repeated σ (hinj _ (by simp)) "main" with
      ⟨x, hx, -⟩ | ⟨l, hmem, hl, hl'⟩ | ⟨l, -, hl, -⟩
    · cases hx
    · rw [hl', hnamed l hmem hl]
    · cases hl
  · have hnamed : ∀ l ∈ missing.mentioned,
        missing.link "main" = .error (.unplacedLabel l.text) → (σ l).text = "_L8" := by decide
    rcases link_relabel missing σ (hinj _ (by simp)) "main" with
      ⟨x, hx, -⟩ | ⟨l, -, hl, -⟩ | ⟨l, hmem, hl, hl'⟩
    · cases hx
    · cases hl
    · rw [hl', hnamed l hmem hl]

end QuadCode
