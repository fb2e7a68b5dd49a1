import QuadCode.Proofs.Temporaries

/-!
# Paths and checked code

A path goes through the lines of linked code as control may, whatever the jumps
on it test. Code can be checked for the variables that are assigned at each of
its entries, and then every path reads assigned variables only.

* `Path code passed k`: control may come to line `k` by the lines `passed`;
* `Checks known V code W`: if the variables of `V` are assigned before the code
  then it reads assigned variables only, and those of `W` are assigned behind it.
  A marker stands for the variables `known` of its label, and a jump to the label
  must have them all;
* `Fragment.readVars_subset_of_path`: on a path through checked code what is
  read was assigned at first or is written on the way.
-/

namespace QuadCode

/-! ### Paths -/

namespace Instr

variable {α β : Type}

/-- Control may go on to the next instruction. -/
def fallsThrough : Instr α → Bool
  | jump _ => false
  | halt => false
  | _ => true

/-- The lines where control may be after an instruction on line `k`, whatever it tests. -/
def successors (k : ℕ) : Instr ℕ → List ℕ
  | jump target => [target]
  | jumpIfZero target _ => [target, k + 1]
  | halt => []
  | _ => [k + 1]

/-- The variables that an instruction reads. -/
def readVars (i : Instr α) : Set String := {y | ∃ ty, (Operand.var y, ty) ∈ i.reads}

theorem readVars_of_mapTarget {f : α → Option β} {i : Instr α} {j : Instr β}
    (h : i.mapTarget f = some j) : j.readVars = i.readVars := by
  rw [readVars, readVars, (reads_of_mapTarget h).1]

/-- Control goes from a line to the next one or to what a target is resolved to. -/
theorem successors_of_mapTarget {f : α → Option ℕ} {i : Instr α} {j : Instr ℕ}
    (h : i.mapTarget f = some j) {k l : ℕ} (hl : l ∈ j.successors k) :
    l = k + 1 ∧ i.fallsThrough = true ∨ ∃ m, i.target? = some m ∧ f m = some l := by
  cases i with
  | jump m =>
    obtain ⟨n, hn, hj⟩ := Option.bind_eq_some_iff.1 h
    cases hj
    obtain rfl := List.mem_singleton.1 hl
    exact Or.inr ⟨m, rfl, hn⟩
  | jumpIfZero m cond =>
    obtain ⟨n, hn, hj⟩ := Option.bind_eq_some_iff.1 h
    cases hj
    rcases List.mem_cons.1 hl with rfl | hl
    · exact Or.inr ⟨m, rfl, hn⟩
    · exact Or.inl ⟨List.mem_singleton.1 hl, rfl⟩
  | halt =>
    obtain rfl := Option.some.inj h
    exact absurd hl List.not_mem_nil
  | _ =>
    obtain rfl := Option.some.inj h
    exact Or.inl ⟨List.mem_singleton.1 hl, rfl⟩

end Instr

/-- Control may come from the first line to line `k` by the lines `passed`, whatever the jumps on
the way test. -/
inductive Path (code : List (Instr ℕ)) : List ℕ → ℕ → Prop where
  | start : Path code [] 0
  | step {passed : List ℕ} {k l : ℕ} {i : Instr ℕ} : Path code passed k → code[k]? = some i →
      l ∈ i.successors k → Path code (passed ++ [k]) l

/-- The variables that are written on the lines that were passed. -/
def writtenOn (code : List (Instr ℕ)) (passed : List ℕ) : Set String :=
  {y | ∃ k ∈ passed, ∃ i, code[k]? = some i ∧ i.dst? = some y}

/-! ### Checked code -/

/-- What is assigned behind an instruction if `V` is assigned before it. Behind a jump this is
everything, since control does not get there. -/
def Instr.leaves (V : Set String) (i : Instr Label) : Set String :=
  {y | i.fallsThrough = true → y ∈ V ∨ i.dst? = some y}

/-- The code reads assigned variables only, if `V` is assigned before it. Then `W` is assigned
behind it. -/
def Checks (known : Label → Set String) : Set String → List Item → Set String → Prop
  | V, [], W => W ⊆ V
  | V, .mark l :: code, W => known l ⊆ V ∧ Checks known (known l) code W
  | V, .instr i :: code, W =>
    i.readVars ⊆ V ∧ (∀ l, i.target? = some l → known l ⊆ V) ∧ Checks known (i.leaves V) code W

section Checks

variable {known : Label → Set String} {V V' W W' : Set String} {c d : List Item}

theorem Instr.leaves_mono (h : V ⊆ V') (i : Instr Label) : i.leaves V ⊆ i.leaves V' :=
  fun _ hy hi => (hy hi).imp_left fun hv => h hv

theorem Checks.mono (h : Checks known V c W) (hV : V ⊆ V') (hW : W' ⊆ W) :
    Checks known V' c W' := by
  induction c generalizing V V' with
  | nil => exact (hW.trans h).trans hV
  | cons item c ih =>
    cases item with
    | mark l => exact ⟨h.1.trans hV, ih h.2 subset_rfl⟩
    | instr i =>
      obtain ⟨hreads, htarget, hrest⟩ := h
      exact ⟨hreads.trans hV, fun l hl => (htarget l hl).trans hV, ih hrest (i.leaves_mono hV)⟩

theorem checks_append :
    Checks known V (c ++ d) W ↔ ∃ U, Checks known V c U ∧ Checks known U d W := by
  induction c generalizing V with
  | nil =>
    constructor
    · exact fun h => ⟨V, subset_rfl, h⟩
    · rintro ⟨U, hU, h⟩
      exact h.mono hU subset_rfl
  | cons item c ih =>
    cases item with
    | mark l =>
      rw [List.cons_append, Checks, ih]
      constructor
      · rintro ⟨hl, U, hc, hd⟩
        exact ⟨U, ⟨hl, hc⟩, hd⟩
      · rintro ⟨U, ⟨hl, hc⟩, hd⟩
        exact ⟨hl, U, hc, hd⟩
    | instr i =>
      rw [List.cons_append, Checks, ih]
      constructor
      · rintro ⟨hr, ht, U, hc, hd⟩
        exact ⟨U, ⟨hr, ht, hc⟩, hd⟩
      · rintro ⟨U, ⟨hr, ht, hc⟩, hd⟩
        exact ⟨hr, ht, U, hc, hd⟩

theorem Checks.append {U : Set String} (hc : Checks known V c U) (hd : Checks known U d W) :
    Checks known V (c ++ d) W := checks_append.2 ⟨U, hc, hd⟩

/-- Control passes the markers in front of the next instruction. -/
theorem Checks.exists_instr (h : Checks known V c W) (hc : instrsIn c ≠ []) :
    ∃ marks i d U, c = marks ++ .instr i :: d ∧ lineCount marks = 0 ∧ U ⊆ V ∧
      Checks known U (.instr i :: d) W := by
  induction c generalizing V with
  | nil => exact absurd rfl hc
  | cons item c ih =>
    cases item with
    | mark l =>
      obtain ⟨marks, i, d, U, rfl, hmarks, hU, hd⟩ := ih h.2 hc
      exact ⟨.mark l :: marks, i, d, U, rfl, hmarks, hU.trans h.1, hd⟩
    | instr i => exact ⟨[], i, c, V, rfl, rfl, subset_rfl, h⟩

end Checks

theorem Label.exists_of_addressIn? {l : Label} {code : List Item} {a : ℕ}
    (h : l.addressIn? code = some a) : ∃ c d, code = c ++ .mark l :: d ∧ lineCount c = a := by
  induction code generalizing a with
  | nil => simp [addressIn?] at h
  | cons item code ih =>
    cases item with
    | mark m =>
      rw [addressIn?] at h
      split_ifs at h with hm
      · subst hm
        exact ⟨[], code, rfl, Option.some.inj h⟩
      · obtain ⟨c, d, rfl, hc⟩ := ih h
        exact ⟨.mark m :: c, d, rfl, hc⟩
    | instr i =>
      obtain ⟨b, hb, rfl⟩ := Option.map_eq_some_iff.1 h
      obtain ⟨c, d, rfl, hc⟩ := ih hb
      exact ⟨.instr i :: c, d, rfl, by rw [lineCount_instr, hc]⟩

/-- Control stands at line `k` of checked code, with `V` assigned. -/
def StandsAt (known : Label → Set String) (code : List Item) (k : ℕ) (V : Set String) : Prop :=
  ∃ c d W, code = c ++ d ∧ lineCount c = k ∧ Checks known V d W

namespace Fragment

variable {f : Fragment} {signature : String} {x : Executable} {known : Label → Set String}
  {V W : Set String}

/-- A line of checked code reads assigned variables, and where control goes from it all is assigned
that was before, or that the line has written. -/
theorem standsAt_of_successor (h : f.link signature = .ok x) (hall : Checks known V f.items W)
    {k : ℕ} {U : Set String} (hstands : StandsAt known f.items k U) {i : Instr ℕ}
    (hi : x.instrs[k]? = some i) :
    i.readVars ⊆ U ∧
      ∀ l ∈ i.successors k, ∃ U' ⊆ U ∪ {y | i.dst? = some y}, StandsAt known f.items l U' := by
  obtain ⟨c, d, W', hitems, rfl, hd⟩ := hstands
  by_cases hempty : instrsIn d = []
  · -- behind the code there is the halt
    have hlast := halt_of_link h
    rw [hitems, lineCount_append, show lineCount d = 0 by rw [lineCount, hempty]; rfl, add_zero,
      hi] at hlast
    obtain rfl := Option.some.inj hlast
    refine ⟨fun y hy => ?_, fun l hl => absurd hl List.not_mem_nil⟩
    obtain ⟨ty, hty⟩ := hy
    exact absurd hty List.not_mem_nil
  · obtain ⟨marks, i', d', U', rfl, hmarks, hU', hreads, htarget, hrest⟩ := hd.exists_instr hempty
    have hnil : instrsIn marks = [] := List.length_eq_zero_iff.1 hmarks
    have hline : f.lines[lineCount c]? = some i' := by
      show (instrsIn f.items ++ [.halt])[lineCount c]? = some i'
      simp [hitems, hnil, lineCount]
    obtain ⟨j, hj, hx⟩ := getElem?_of_link h hline
    obtain rfl := Option.some.inj (hi.symm.trans hx)
    refine ⟨?_, fun l hl => ?_⟩
    · rw [Instr.readVars_of_mapTarget hj]
      exact hreads.trans hU'
    · rcases Instr.successors_of_mapTarget hj hl with ⟨rfl, hfalls⟩ | ⟨m, hm, haddress⟩
      · refine ⟨i'.leaves U', fun y hy => ?_, c ++ marks ++ [.instr i'], d', W', by simp [hitems],
          by simp [hmarks], hrest⟩
        exact (hy hfalls).imp (fun hv => hU' hv) fun hdst => (Instr.dst?_of_mapTarget hj).trans hdst
      · -- the marker of the target is in checked code too
        obtain ⟨c₂, d₂, hitems₂, hc₂⟩ := Label.exists_of_addressIn? haddress
        rw [hitems₂] at hall
        obtain ⟨U₂, -, -, hafter⟩ := checks_append.1 hall
        exact ⟨known m, ((htarget m hm).trans hU').trans Set.subset_union_left, c₂ ++ [.mark m], d₂,
          W, by simp [hitems₂], by simp [hc₂], hafter⟩

theorem standsAt_of_path (h : f.link signature = .ok x) (hall : Checks known V f.items W)
    {passed : List ℕ} {k : ℕ} (hpath : Path x.instrs passed k) :
    ∃ U ⊆ V ∪ writtenOn x.instrs passed, StandsAt known f.items k U := by
  induction hpath with
  | start => exact ⟨V, Set.subset_union_left, [], f.items, W, rfl, rfl, hall⟩
  | @step passed k l i _ hi hl ih =>
    obtain ⟨U, hU, hstands⟩ := ih
    obtain ⟨U', hU', hstands'⟩ := (standsAt_of_successor h hall hstands hi).2 l hl
    refine ⟨U', fun y hy => ?_, hstands'⟩
    rcases hU' hy with hy | hdst
    · refine (hU hy).imp_right ?_
      rintro ⟨a, ha, hdst⟩
      exact ⟨a, List.mem_append_left _ ha, hdst⟩
    · exact Or.inr ⟨k, by simp, i, hi, hdst⟩

/-- On a path through checked code what is read was assigned at first or is written on the way. -/
theorem readVars_subset_of_path (h : f.link signature = .ok x) (hall : Checks known V f.items W)
    {passed : List ℕ} {k : ℕ} (hpath : Path x.instrs passed k) {i : Instr ℕ}
    (hi : x.instrs[k]? = some i) : i.readVars ⊆ V ∪ writtenOn x.instrs passed := by
  obtain ⟨U, hU, hstands⟩ := standsAt_of_path h hall hpath
  exact (standsAt_of_successor h hall hstands hi).1.trans hU

end Fragment

end QuadCode
