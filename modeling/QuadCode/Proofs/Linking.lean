import QuadCode.Compile
import QuadCode.Proofs.Labels
import QuadCode.Proofs.Machine
import Mathlib.Data.List.Forall2

/-!
# Linked code

In a linked program every instruction of the symbolic code stands on the line
that counts the instructions before it, and a label stands for the line of the
instruction behind its marker.

* `Placed lines address a code`: the code stands on the lines from `a` on, with
  labels resolved by `address`. It splits along `++` (`placed_append`);
* `Fragment.placed_of_link`: linking places the whole code at line zero;
* `Program.exists_link`: the code of a program can always be linked.
-/

namespace QuadCode

/-- The number of lines that code takes. -/
def lineCount (code : List Item) : ℕ := (instrsIn code).length

@[simp] theorem lineCount_nil : lineCount [] = 0 := rfl

@[simp] theorem lineCount_mark (l : Label) (code : List Item) :
    lineCount (.mark l :: code) = lineCount code := rfl

@[simp] theorem lineCount_instr (i : Instr Label) (code : List Item) :
    lineCount (.instr i :: code) = lineCount code + 1 := rfl

@[simp] theorem lineCount_append (c d : List Item) :
    lineCount (c ++ d) = lineCount c + lineCount d := by simp [lineCount]

namespace Label

theorem addressIn?_append_eq_or (l : Label) (c d : List Item) :
    l.addressIn? (c ++ d) = (l.addressIn? c).or ((l.addressIn? d).map (· + lineCount c)) := by
  induction c with
  | nil => simp [addressIn?]
  | cons item c ih =>
    cases item with
    | mark m =>
      rw [List.cons_append, addressIn?, addressIn?, ih, lineCount_mark]
      split_ifs <;> rfl
    | instr i =>
      rw [List.cons_append, addressIn?, addressIn?, ih, lineCount_instr, Option.map_or,
        Option.map_map]
      rfl

theorem addressIn?_eq_none_iff {l : Label} {code : List Item} :
    l.addressIn? code = none ↔ l ∉ labelsIn code := by
  induction code with
  | nil => simp [addressIn?]
  | cons item code ih =>
    cases item with
    | mark m =>
      by_cases hm : m = l
      · simp [addressIn?, hm]
      · simp [addressIn?, hm, ih, Ne.symm hm]
    | instr i => simp [addressIn?, ih]

theorem addressIn?_append {l : Label} {c : List Item} (h : l ∉ labelsIn c) (d : List Item) :
    l.addressIn? (c ++ d) = (l.addressIn? d).map (· + lineCount c) := by
  rw [addressIn?_append_eq_or, addressIn?_eq_none_iff.2 h, Option.none_or]

theorem le_of_addressIn? {l : Label} {code : List Item} {a : ℕ} (h : l.addressIn? code = some a) :
    a ≤ lineCount code := by
  induction code generalizing a with
  | nil => simp [addressIn?] at h
  | cons item code ih =>
    cases item with
    | mark m =>
      rw [addressIn?] at h
      split_ifs at h
      · cases h
        exact Nat.zero_le _
      · exact ih h
    | instr i =>
      obtain ⟨b, hb, rfl⟩ := Option.map_eq_some_iff.1 h
      exact Nat.succ_le_succ (ih hb)

/-- A label whose marker is the first of its kind is the line behind the code before it. -/
theorem addressIn?_of_mark {l : Label} {c : List Item} (h : l ∉ labelsIn c) (d : List Item) :
    l.addressIn? (c ++ .mark l :: d) = some (lineCount c) := by
  rw [addressIn?_append h, addressIn?, if_pos rfl]
  simp

/-- A label that is placed once is the line behind the code before its marker. -/
theorem addressIn?_of_nodup {l : Label} {c d code : List Item} (h : (labelsIn code).Nodup)
    (he : code = c ++ .mark l :: d) : l.addressIn? code = some (lineCount c) := by
  subst he
  rw [labelsIn_append, labelsIn_mark] at h
  refine addressIn?_of_mark (fun hmem => ?_) d
  exact (List.nodup_append.1 h).2.2 l hmem l (List.mem_cons_self ..) rfl

end Label

/-! ### Code on lines -/

/-- The code stands on the lines from `a` on, with labels resolved by `address`. -/
def Placed (lines : List (Instr ℕ)) (address : Label → Option ℕ) : ℕ → List Item → Prop
  | _, [] => True
  | a, .mark l :: code => address l = some a ∧ Placed lines address a code
  | a, .instr i :: code =>
    (∃ j, i.mapTarget address = some j ∧ lines[a]? = some j) ∧ Placed lines address (a + 1) code

section Placed

variable {lines : List (Instr ℕ)} {address : Label → Option ℕ} {a : ℕ}

@[simp] theorem placed_nil : Placed lines address a [] := trivial

@[simp] theorem placed_mark {l : Label} {code : List Item} :
    Placed lines address a (.mark l :: code) ↔
      address l = some a ∧ Placed lines address a code := Iff.rfl

@[simp] theorem placed_instr {i : Instr Label} {code : List Item} :
    Placed lines address a (.instr i :: code) ↔
      (∃ j, i.mapTarget address = some j ∧ lines[a]? = some j) ∧
        Placed lines address (a + 1) code := Iff.rfl

theorem placed_append {c d : List Item} :
    Placed lines address a (c ++ d) ↔
      Placed lines address a c ∧ Placed lines address (a + lineCount c) d := by
  induction c generalizing a with
  | nil => simp
  | cons item c ih =>
    cases item with
    | mark l => simp only [List.cons_append, placed_mark, ih, lineCount_mark, and_assoc]
    | instr i =>
      simp only [List.cons_append, placed_instr, ih, lineCount_instr, and_assoc]
      rw [show a + 1 + lineCount c = a + (lineCount c + 1) by omega]

end Placed

/-! ### Linking -/

theorem mapM_ok_iff {ε α β : Type} {f : α → Except ε β} {l : List α} {m : List β} :
    l.mapM f = .ok m ↔ List.Forall₂ (fun a b => f a = .ok b) l m := by
  induction l generalizing m with
  | nil =>
    rw [List.mapM_nil, List.forall₂_nil_left_iff]
    exact ⟨fun h => (Except.ok.inj h).symm, fun h => h ▸ rfl⟩
  | cons a l ih =>
    rw [List.mapM_cons, List.forall₂_cons_left_iff]
    constructor
    · intro h
      cases ha : f a with
      | error e => simp [ha, bind, Except.bind] at h
      | ok b =>
        cases hl : l.mapM f with
        | error e => simp [ha, hl, bind, Except.bind] at h
        | ok bs =>
          simp only [ha, hl, bind, Except.bind, pure, Except.pure, Except.ok.injEq] at h
          exact ⟨b, bs, rfl, ih.1 hl, h.symm⟩
    · rintro ⟨b, bs, hb, hbs, rfl⟩
      rw [hb, ih.2 hbs]
      rfl

namespace Instr

variable {α β : Type}

/-- Targets are resolved to lines if they are placed. -/
theorem mapTarget_resolve_ok_iff {items : List Item} {i : Instr Label} {j : Instr ℕ} :
    i.mapTarget (Label.resolve items) = .ok j ↔
      i.mapTarget (fun l => l.addressIn? items) = some j := by
  have hres : ∀ (l : Label) (f : ℕ → Instr ℕ),
      ((Label.resolve items l >>= fun n => pure (f n)) = Except.ok j) ↔
        ((l.addressIn? items >>= fun n => pure (f n)) = some j) := by
    intro l f
    unfold Label.resolve
    cases l.addressIn? items <;> simp [bind, Except.bind, pure, Except.pure]
  cases i with
  | jump l => exact hres l .jump
  | jumpIfZero l cond => exact hres l fun n => .jumpIfZero n cond
  | _ => simp [mapTarget, pure, Except.pure]

theorem exists_mapTarget {f : α → Option β} {i : Instr α}
    (h : ∀ l, i.target? = some l → f l ≠ none) : ∃ j, i.mapTarget f = some j := by
  cases i with
  | jump l =>
    obtain ⟨b, hb⟩ := Option.ne_none_iff_exists'.1 (h l rfl)
    exact ⟨.jump b, by simp [mapTarget, hb]⟩
  | jumpIfZero l cond =>
    obtain ⟨b, hb⟩ := Option.ne_none_iff_exists'.1 (h l rfl)
    exact ⟨.jumpIfZero b cond, by simp [mapTarget, hb]⟩
  | _ => exact ⟨_, rfl⟩

/-- Resolving a target does not change what the instruction does. -/
theorem opcode_of_mapTarget {f : α → Option β} {i : Instr α} {j : Instr β}
    (h : i.mapTarget f = some j) : j.opcode = i.opcode := by
  cases i with
  | jump l =>
    obtain ⟨n, -, hj⟩ := Option.bind_eq_some_iff.1 h
    obtain rfl := Option.some.inj hj
    rfl
  | jumpIfZero l cond =>
    obtain ⟨n, -, hj⟩ := Option.bind_eq_some_iff.1 h
    obtain rfl := Option.some.inj hj
    rfl
  | convert ty dst src =>
    obtain rfl := Option.some.inj h
    cases ty <;> rfl
  | _ =>
    obtain rfl := Option.some.inj h
    rfl

/-- A resolved target is what the target is resolved to. -/
theorem target?_of_mapTarget {f : α → Option β} {i : Instr α} {j : Instr β}
    (h : i.mapTarget f = some j) : j.target? = i.target?.bind f := by
  cases i with
  | jump l =>
    obtain ⟨n, hn, hj⟩ := Option.bind_eq_some_iff.1 h
    obtain rfl := Option.some.inj hj
    exact hn.symm
  | jumpIfZero l cond =>
    obtain ⟨n, hn, hj⟩ := Option.bind_eq_some_iff.1 h
    obtain rfl := Option.some.inj hj
    exact hn.symm
  | _ =>
    obtain rfl := Option.some.inj h
    rfl

end Instr

namespace Fragment

variable {f : Fragment} {signature : String} {x : Executable}

/-- Linking succeeds if no label is placed twice and every target is placed, and resolves the lines
one by one. -/
theorem link_ok_iff :
    f.link signature = .ok x ↔ f.labels.Nodup ∧ x.signature = signature ∧
      List.Forall₂ (fun i j => i.mapTarget (fun l => l.addressIn? f.items) = some j)
        f.lines x.instrs := by
  unfold link
  rw [← firstRepeat?_eq_none_iff]
  simp only [← Instr.mapTarget_resolve_ok_iff, ← mapM_ok_iff]
  cases hrep : firstRepeat? f.labels with
  | some l => simp [throw, throwThe, MonadExceptOf.throw]
  | none =>
    cases hm : f.lines.mapM (Instr.mapTarget (Label.resolve f.items)) with
    | error e => simp [bind, Except.bind]
    | ok instrs =>
      obtain ⟨xi, xs⟩ := x
      simp [bind, Except.bind, pure, Except.pure, eq_comm, and_comm]

theorem exists_link (hnodup : f.labels.Nodup)
    (htargets : ∀ i ∈ f.instrs, ∀ l, i.target? = some l → l ∈ f.labels) (signature : String) :
    ∃ x, f.link signature = .ok x := by
  have hline : ∀ i ∈ f.lines, ∃ j : Instr ℕ,
      i.mapTarget (fun l => l.addressIn? f.items) = some j := by
    intro i hi
    refine Instr.exists_mapTarget fun l hl hnone => ?_
    rcases List.mem_append.1 hi with hi | hi
    · exact Label.addressIn?_eq_none_iff.1 hnone (htargets i hi l hl)
    · obtain rfl := List.mem_singleton.1 hi
      simp [Instr.target?] at hl
  have : Nonempty (Instr ℕ) := ⟨.halt⟩
  choose! g hg using hline
  refine ⟨⟨f.lines.map g, signature⟩, link_ok_iff.2 ⟨hnodup, rfl, ?_⟩⟩
  rw [List.forall₂_map_right_iff, List.forall₂_same]
  exact hg

/-- Line by line a linked program is the code it was linked from. -/
theorem getElem?_of_link (h : f.link signature = .ok x) {k : ℕ} {i : Instr Label}
    (hi : f.lines[k]? = some i) :
    ∃ j, i.mapTarget (fun l => l.addressIn? f.items) = some j ∧ x.instrs[k]? = some j := by
  obtain ⟨-, -, hlines⟩ := link_ok_iff.1 h
  obtain ⟨hk, rfl⟩ := List.getElem?_eq_some_iff.1 hi
  have hk' : k < x.instrs.length := hlines.length_eq ▸ hk
  exact ⟨x.instrs[k], hlines.get hk hk', List.getElem?_eq_getElem hk'⟩

theorem exists_of_mem_link (h : f.link signature = .ok x) {j : Instr ℕ} (hj : j ∈ x.instrs) :
    ∃ i ∈ f.lines, i.mapTarget (fun l => l.addressIn? f.items) = some j := by
  obtain ⟨-, -, hlines⟩ := link_ok_iff.1 h
  obtain ⟨k, hk, rfl⟩ := List.mem_iff_getElem.1 hj
  have hk' : k < f.lines.length := hlines.length_eq ▸ hk
  exact ⟨f.lines[k], List.getElem_mem hk', hlines.get hk' hk⟩

theorem length_of_link (h : f.link signature = .ok x) :
    x.instrs.length = lineCount f.items + 1 := by
  obtain ⟨-, -, hlines⟩ := link_ok_iff.1 h
  rw [← hlines.length_eq, lines, List.length_append]
  rfl

/-- The code ends before the last line, which is a halt. -/
theorem halt_of_link (h : f.link signature = .ok x) :
    x.instrs[lineCount f.items]? = some .halt := by
  have hlast : f.lines[lineCount f.items]? = some .halt := by
    simp [lines, lineCount, instrs, instrsIn]
  obtain ⟨j, hj, hx⟩ := getElem?_of_link h hlast
  cases hj
  exact hx

end Fragment

theorem Instr.GoesTo.mapTarget {α β : Type} {P : α → Prop} {Q : β → Prop} {f : α → Option β}
    {i : Instr α} {j : Instr β} (hi : i.GoesTo P) (hj : i.mapTarget f = some j)
    (hf : ∀ l n, P l → f l = some n → Q n) : j.GoesTo Q := by
  cases i with
  | jump l =>
    simp only [Instr.mapTarget, Option.bind_eq_bind, Option.bind_eq_some_iff, Option.pure_def,
      Option.some.injEq] at hj
    obtain ⟨n, hn, rfl⟩ := hj
    exact hf l n hi hn
  | jumpIfZero l cond =>
    simp only [Instr.mapTarget, Option.bind_eq_bind, Option.bind_eq_some_iff, Option.pure_def,
      Option.some.injEq] at hj
    obtain ⟨n, hn, rfl⟩ := hj
    exact hf l n hi hn
  | halt => exact hi.elim
  | _ =>
    obtain rfl := Option.some.inj hj
    trivial

/-- Linked code goes on or jumps to one of its lines or the halt behind them. -/
theorem Fragment.goesTo_of_link {f : Fragment} {signature : String} {x : Executable}
    {P : Label → Prop} (h : f.link signature = .ok x) (hf : GoesTo P f.items) {k : ℕ}
    (hk : k < lineCount f.items) :
    ∃ j, x.instrs[k]? = some j ∧ j.GoesTo fun n => n < x.instrs.length := by
  obtain ⟨i, hi⟩ : ∃ i, f.instrs[k]? = some i := ⟨_, List.getElem?_eq_getElem hk⟩
  have hline : f.lines[k]? = some i := (List.getElem?_append_left hk).trans hi
  obtain ⟨j, hj, hx⟩ := getElem?_of_link h hline
  refine ⟨j, hx, (hf i (List.mem_of_getElem? hi)).mapTarget hj fun l n _ hn => ?_⟩
  rw [length_of_link h]
  exact Nat.lt_succ_of_le (Label.le_of_addressIn? hn)

/-- Code whose lines and markers are where they should be is placed. -/
theorem placed_of_lines {lines : List (Instr ℕ)} {address : Label → Option ℕ} {c d : List Item}
    (hlines : ∀ (k : ℕ) (i : Instr Label), (instrsIn (c ++ d))[k]? = some i →
      ∃ j, i.mapTarget address = some j ∧ lines[k]? = some j)
    (hmarks : ∀ c' l d', c ++ d = c' ++ .mark l :: d' → address l = some (lineCount c')) :
    Placed lines address (lineCount c) d := by
  -- the whole code stays the same, and the border between `c` and `d` moves on
  induction d generalizing c with
  | nil => trivial
  | cons item d ih =>
    have happ : c ++ item :: d = (c ++ [item]) ++ d := by simp
    have hrest : Placed lines address (lineCount (c ++ [item])) d :=
      ih (fun k i hi => hlines k i (happ ▸ hi)) fun c' l d' he => hmarks c' l d' (happ.trans he)
    cases item with
    | mark l =>
      refine ⟨hmarks c l d rfl, ?_⟩
      rwa [lineCount_append] at hrest
    | instr i =>
      refine ⟨hlines _ i ?_, ?_⟩
      · simp [lineCount]
      · rwa [lineCount_append] at hrest

theorem Fragment.placed_of_link {f : Fragment} {signature : String} {x : Executable}
    (h : f.link signature = .ok x) :
    Placed x.instrs (fun l => l.addressIn? f.items) 0 f.items := by
  obtain ⟨hnodup, -, -⟩ := link_ok_iff.1 h
  refine placed_of_lines (c := []) (fun k i hi => ?_) fun c l d he => ?_
  · refine getElem?_of_link h ?_
    have hk : k < f.instrs.length := (List.getElem?_eq_some_iff.1 hi).1
    rw [lines, List.getElem?_append_left hk]
    exact hi
  · rw [List.nil_append] at he
    exact Label.addressIn?_of_nodup hnodup he

/-! ### Programs -/

namespace Program

/-- The number of labels that the code of a program has. -/
def labelCount (p : Program) : ℕ := Stmt.labelCount (Stmt.partsAll p.body)

theorem labelled {p : Program} {f : Fragment} (h : p.lower = .ok f) :
    Labelled 0 p.labelCount f.items := by
  obtain ⟨t, ht⟩ := lower_ok h
  obtain ⟨scope, -, hbody⟩ := lowerItems_ok ht
  obtain ⟨hL, hn⟩ := Stmt.lowerAll_labelled hbody
  simpa [hn, labelCount] using hL

/-- The code of a program can be linked. -/
theorem exists_link {p : Program} {f : Fragment} (h : p.lower = .ok f) (signature : String) :
    ∃ x, f.link signature = .ok x := by
  have hL := labelled h
  refine Fragment.exists_link hL.nodup (fun i hi l hl => ?_) signature
  exact hL.mem_iff.2 ((hL.jumps i hi).of_target hl)

end Program

end QuadCode
