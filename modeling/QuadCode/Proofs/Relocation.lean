import QuadCode.Proofs.Resolution

/-!
# Linking code that is put together

If the code of `b` is put behind the code of `a`, the line numbers of `a` stay and
those of `b` grow by the number of instructions of `a`. The halt that stood
behind `a` gives way to the first line of `b`.

* `Fragment.addressOf_append_left`, `Fragment.addressOf_append_right`: the line
  numbers of labels;
* `Fragment.retarget_append`: the instructions with their targets replaced;
* `Fragment.exists_link_append_error`: a label placed in both parts.

The main statement is `link_append_relocates`.
-/

namespace QuadCode

namespace Fragment

variable {a b : Fragment} {l : Label}

theorem addressOf_append_left (hl : l ∈ a.labels) :
    (a.append b).addressOf l = a.addressOf l := by
  unfold addressOf append
  rw [Label.addressIn?_append_eq_or, addressIn?_eq_addressOf hl, Option.some_or]

theorem addressOf_append_right (ha : l ∉ a.labels) (hb : l ∈ b.labels) :
    (a.append b).addressOf l = b.addressOf l + a.instrs.length := by
  have haddress : l.addressIn? (a.items ++ b.items) = some (b.addressOf l + lineCount a.items) := by
    rw [Label.addressIn?_append ha, addressIn?_eq_addressOf hb, Option.map_some]
  unfold addressOf append
  rw [haddress, Option.getD_some]
  rfl

theorem resolves_append (ha : a.Resolves a.instrs) (hb : b.Resolves b.instrs) :
    (a.append b).Resolves (a.append b).instrs := by
  intro i hi l hl
  rw [labels_append]
  rw [instrs_append] at hi
  rcases List.mem_append.1 hi with hi | hi
  · exact List.mem_append_left _ (ha i hi l hl)
  · exact List.mem_append_right _ (hb i hi l hl)

/-- The targets of the first part are replaced as before, those of the second part by later
lines. -/
theorem retarget_append (ha : a.Resolves a.instrs) (hb : b.Resolves b.instrs)
    (h : ∀ l ∈ a.labels, l ∉ b.labels) :
    (a.append b).instrs.map (Instr.retarget (a.append b).addressOf) =
      a.instrs.map (Instr.retarget a.addressOf) ++
        (b.instrs.map (Instr.retarget b.addressOf)).map
          (Instr.retarget (· + a.instrs.length)) := by
  rw [instrs_append, List.map_append, List.map_map]
  congr 1
  · refine List.map_congr_left fun i hi => Instr.retarget_congr fun l hl => ?_
    exact addressOf_append_left (ha i hi l hl)
  · refine List.map_congr_left fun i hi => ?_
    rw [Function.comp_apply, Instr.retarget_retarget]
    refine Instr.retarget_congr fun l hl => ?_
    -- the first marker of a label of `b` stands in `b`
    have hlb : l ∈ b.labels := hb i hi l hl
    exact addressOf_append_right (fun hla => h l hla hlb) hlb

/-- A label at the end of the code is the line behind it, whatever follows. -/
theorem addressIn?_of_trailing {before after : List Item} (hnodup : a.labels.Nodup)
    (he : a.items = before ++ .mark l :: after) (hafter : instrsIn after = []) (rest : List Item) :
    l.addressIn? (a.items ++ rest) = some a.instrs.length := by
  have hlines : a.instrs.length = lineCount before := by
    change lineCount a.items = lineCount before
    rw [he, lineCount_append, lineCount_mark, lineCount, lineCount, hafter]
    rfl
  rw [Label.addressIn?_append_eq_or, Label.addressIn?_of_nodup hnodup he, Option.some_or, hlines]

/-- Behind the first part stands the first line of the second. -/
theorem getElem?_append_lines (address : Label → ℕ) :
    ((a.append b).instrs.map (Instr.retarget address) ++ [.halt])[a.instrs.length]? =
      b.lines.head?.map (Instr.retarget address) := by
  have hlines : (a.append b).instrs.map (Instr.retarget address) ++ [.halt] =
      a.instrs.map (Instr.retarget address) ++ b.lines.map (Instr.retarget address) := by
    simp [lines]
  rw [hlines, List.getElem?_append_right (by simp), List.head?_eq_getElem?, ← List.getElem?_map,
    List.length_map, Nat.sub_self]

/-- A label that is placed in both parts is placed again. -/
theorem exists_link_append_error (ha : l ∈ a.labels) (hb : l ∈ b.labels) (signature : String) :
    ∃ m, (a.append b).PlacedAgain m ∧
      (a.append b).link signature = .error (.duplicateLabel m.text) := by
  apply exists_placedAgain
  rw [labels_append, List.nodup_append]
  exact fun hnodup => hnodup.2.2 l ha l hb rfl

end Fragment

/-- The code of a program that has a label has the label with number zero. -/
theorem Program.zero_mem_labels {p : Program} {f : Fragment} (h : p.lower = .ok f)
    (hf : f.labels ≠ []) : (⟨0⟩ : Label) ∈ f.labels := by
  have hL := p.labelled h
  obtain ⟨l, hl⟩ := List.exists_mem_of_ne_nil _ hf
  have hbetween : l.Between 0 p.labelCount := hL.mem_iff.1 hl
  exact hL.mem_iff.2 ⟨le_rfl, (Nat.zero_le _).trans_lt hbetween.2⟩

/-- If both parts can be linked and no label is placed in both, the whole is linked to the lines of
the first part without its halt and the lines of the second, with later targets; a label at the end
of the first part no longer stands for its halt but for the first line of the second. If a label is
placed in both, the whole is refused. This is so for the code of any two programs that have
labels. -/
theorem link_append_relocates (a b : Fragment) (signature : String) :
    (∀ sa sb x y, a.link sa = .ok x → b.link sb = .ok y → (∀ l ∈ a.labels, l ∉ b.labels) →
      ∃ body z, x.instrs = body ++ [.halt] ∧ (a.append b).link signature = .ok z ∧
        z.signature = signature ∧
        z.instrs = body ++ y.instrs.map (Instr.retarget (· + a.instrs.length)) ∧
        ∀ before l after, a.items = before ++ .mark l :: after → instrsIn after = [] →
          l.addressIn? a.items = some a.instrs.length ∧
          x.instrs[a.instrs.length]? = some .halt ∧
          l.addressIn? (a.append b).items = some a.instrs.length ∧
          z.instrs[a.instrs.length]? =
            b.lines.head?.map (Instr.retarget (a.append b).addressOf)) ∧
    ((∃ l ∈ a.labels, l ∈ b.labels) →
      ∃ m, (a.append b).PlacedAgain m ∧
        (a.append b).link signature = .error (.duplicateLabel m.text)) ∧
    (∀ p q : Program, p.lower = .ok a → q.lower = .ok b → a.labels ≠ [] → b.labels ≠ [] →
      ∃ m, (a.append b).PlacedAgain m ∧
        (a.append b).link signature = .error (.duplicateLabel m.text)) := by
  refine ⟨?_, ?_, ?_⟩
  · intro sa sb x y hx hy hdisjoint
    obtain ⟨hna, hra, rfl⟩ := Fragment.link_eq_ok_iff.1 hx
    obtain ⟨hnb, hrb, rfl⟩ := Fragment.link_eq_ok_iff.1 hy
    have hnodup : (a.append b).labels.Nodup := by
      rw [Fragment.labels_append]
      exact hna.append hnb hdisjoint
    refine ⟨_, _, rfl, Fragment.link_eq_ok hnodup (Fragment.resolves_append hra hrb) signature, rfl,
      ?_, ?_⟩
    · rw [Fragment.retarget_append hra hrb hdisjoint, List.map_append, List.append_assoc]
      rfl
    · intro before l after he hafter
      refine ⟨?_, by simp, ?_, Fragment.getElem?_append_lines _⟩
      · have hend := Fragment.addressIn?_of_trailing hna he hafter []
        rwa [List.append_nil] at hend
      · exact Fragment.addressIn?_of_trailing hna he hafter b.items
  · rintro ⟨l, hla, hlb⟩
    exact Fragment.exists_link_append_error hla hlb signature
  · intro p q hp hq ha hb
    exact Fragment.exists_link_append_error (Program.zero_mem_labels hp ha)
      (Program.zero_mem_labels hq hb) signature

/-- Code with a halt in the middle and a label at the end before a loop, the loop twice, and the
code of a program twice. -/
theorem link_append_relocates_loop :
    let a : Fragment := { items := [.instr (.jumpIfZero ⟨4⟩ (.var "c")), .instr .halt, .mark ⟨4⟩] }
    let b : Fragment := { items := [.mark ⟨0⟩, .instr (.jump ⟨0⟩)] }
    let x : Executable := ⟨[.jumpIfZero 2 (.var "c"), .halt, .halt], "a"⟩
    let y : Executable := ⟨[.jump 0, .halt], "b"⟩
    (a.link "a" = .ok x ∧ b.link "b" = .ok y ∧ (∀ l ∈ a.labels, l ∉ b.labels) ∧
      ∃ body z, x.instrs = body ++ [.halt] ∧ (a.append b).link "both" = .ok z ∧
        z.signature = "both" ∧ z.instrs = body ++ y.instrs.map (Instr.retarget (· + 2)) ∧
        Label.addressIn? ⟨4⟩ a.items = some 2 ∧ x.instrs[2]? = some .halt ∧
        Label.addressIn? ⟨4⟩ (a.append b).items = some 2 ∧ z.instrs[2]? = some (.jump 2)) ∧
    ((∃ l ∈ b.labels, l ∈ b.labels) ∧ ∃ m, (b.append b).PlacedAgain m ∧
      (b.append b).link "twice" = .error (.duplicateLabel m.text)) ∧
    ∃ f, Program.sample.lower = .ok f ∧ f.labels ≠ [] ∧ ∃ m, (f.append f).PlacedAgain m ∧
      (f.append f).link "twice" = .error (.duplicateLabel m.text) := by
  intro a b x y
  refine ⟨⟨rfl, rfl, by decide, ?_⟩, ⟨⟨⟨0⟩, by decide, by decide⟩, ?_⟩, ?_⟩
  · obtain ⟨body, z, hbody, hz, hsign, hlines, hend⟩ :=
      (link_append_relocates a b "both").1 "a" "b" x y rfl rfl (by decide)
    obtain ⟨haddress, hhalt, happ, hfirst⟩ := hend [.instr (.jumpIfZero ⟨4⟩ (.var "c")),
      .instr .halt] ⟨4⟩ [] rfl rfl
    exact ⟨body, z, hbody, hz, hsign, hlines, haddress, hhalt, happ, hfirst⟩
  · exact (link_append_relocates b b "twice").2.1 ⟨⟨0⟩, by decide, by decide⟩
  · obtain ⟨f, hf⟩ := Program.exists_lower_sample
    have hzero : (⟨0⟩ : Label) ∈ f.labels :=
      (Program.labelled hf).mem_iff.2 ⟨le_rfl, by decide +kernel⟩
    have hne : f.labels ≠ [] := List.ne_nil_of_mem hzero
    exact ⟨f, hf, hne, (link_append_relocates f f "twice").2.2 _ _ hf hf hne hne⟩

end QuadCode
