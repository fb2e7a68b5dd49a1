import QuadCode.Proofs.RoundTrip
import Mathlib.Data.List.DropRight

/-!
# Linking a listing

Labels can also be resolved in the text of a fragment. A first pass goes through
the lines. A line at the margin that ends in a colon is a marker: its label gets
the number of the lines that were kept before it, and the marker is dropped. All
other lines are trimmed and kept. A second pass replaces the first operand of
each jump by the number of its label.

* `Listing.Scan.next` and `Listing.scan` make the first pass, `Listing.resolve`
  makes the second one on a line, and `Listing.link` links a listing;
* `Listing.Scanned` says what the first pass has kept and recorded of code. Each
  entry preserves it, and so does a run over all entries (`Listing.Scanned.run`);
* `Listing.resolve_text`: resolving the line of an instruction gives the line of
  the resolved instruction;
* `link_listing`: linking the listing of a fragment gives the text of the linked
  fragment.

The second pass compares whole tokens and looks at one of them, so a label may
be the beginning of another and a variable may be spelled like a label.
-/

namespace QuadCode

namespace Listing

/-! ### The two passes -/

/-- The label of a marker, which is a line that is not indented and ends in a colon. -/
def label? (line : List Char) : Option (List Char) :=
  if line.head?.any Char.isWhitespace then none
  else if line.getLast? = some ':' then some line.dropLast
  else none

/-- A line without the blanks around it. -/
def trim (line : List Char) : List Char :=
  (line.dropWhile Char.isWhitespace).rdropWhile Char.isWhitespace

/-- The lines that were kept, in order, and the labels that were recorded, the last one first. -/
structure Scan where
  lines : List (List Char) := []
  labels : List (List Char × ℕ) := []

/-- The first pass on one line. -/
def Scan.next (s : Scan) (line : List Char) : Scan :=
  match label? line with
  | some l => { s with labels := (l, s.lines.length) :: s.labels }
  | none => { s with lines := s.lines ++ [trim line] }

/-- The first pass. -/
def scan (lines : List (List Char)) : Scan := lines.foldl Scan.next {}

/-- The opcodes of jumps. -/
def isJump (opcode : List Char) : Bool := opcode == "JUMP".toList || opcode == "JMPZ".toList

/-- The second pass on one line. -/
def resolve (labels : List (List Char × ℕ)) (line : List Char) : List Char :=
  match line.splitOn ' ' with
  | opcode :: target :: operands =>
    match labels.lookup target with
    | some n =>
      if isJump opcode then [' '].intercalate (opcode :: (Nat.repr n).toList :: operands) else line
    | none => line
  | _ => line

/-- Link a listing: append a halt, make both passes and append the comment. -/
def link (listing signature : String) : String :=
  let s := scan (linesOf (listing ++ "HALT"))
  String.join (s.lines.map fun line => String.ofList (resolve s.labels line) ++ "\n") ++
    "; generated by " ++ signature ++ "\n"

/-! ### Blanks -/

theorem isWhitespace_of_isTokenChar {c : Char} (h : isTokenChar c = true) :
    c.isWhitespace = false := by
  by_contra hc
  have hblank : ((c = ' ' ∨ c = '\t') ∨ c = '\r') ∨ c = '\n' := by
    simpa only [Char.isWhitespace, Bool.not_eq_false, Bool.or_eq_true, decide_eq_true_eq] using hc
  rcases hblank with ((rfl | rfl) | rfl) | rfl <;> exact absurd h (by decide)

/-- A line of tokens starts and ends with characters of tokens. -/
theorem isTokenChar_of_mem_ends {ts : List (List Char)} (h : ∀ t ∈ ts, isToken t = true) {c : Char}
    (hc : c ∈ ([' '].intercalate ts).head? ∨ c ∈ ([' '].intercalate ts).getLast?) :
    isTokenChar c = true := by
  induction ts with
  | nil => simp at hc
  | cons t ts ih =>
    obtain ⟨ht, hts⟩ := List.forall_mem_cons.1 h
    obtain ⟨hne, hchars⟩ := isToken_iff.1 ht
    cases ts with
    | nil =>
      rw [List.intercalate_singleton] at hc
      exact hchars c (hc.elim List.mem_of_mem_head? List.mem_of_mem_getLast?)
    | cons u us =>
      have hrest : [' '].intercalate (u :: us) ≠ [] := by
        have hu := (isToken_iff.1 (hts u List.mem_cons_self)).1
        cases us <;> simp [List.intercalate_cons_cons, hu]
      rw [List.intercalate_cons_cons, List.getLast?_append_of_ne_nil _ hrest, List.append_assoc,
        List.head?_append_of_ne_nil _ hne] at hc
      rcases hc with hc | hc
      · exact hchars c (List.mem_of_mem_head? hc)
      · exact ih hts (.inr hc)

theorem trim_append {indent line : List Char} (hindent : ∀ c ∈ indent, c.isWhitespace = true)
    (hline : ∀ c, c ∈ line.head? ∨ c ∈ line.getLast? → c.isWhitespace = false) :
    trim (indent ++ line) = line := by
  have hfirst : line.dropWhile Char.isWhitespace = line := by
    cases line with
    | nil => rfl
    | cons c cs => rw [List.dropWhile_cons_of_neg (by simp [hline c (.inl rfl)])]
  rw [trim, List.dropWhile_append_of_pos hindent, hfirst, List.rdropWhile_eq_self_iff]
  intro hne
  simp [hline _ (.inr (List.getLast_mem_getLast? hne))]

end Listing

/-! ### The lines of a listing -/

theorem Label.text_injective : Function.Injective Label.text := fun _ _ h =>
  congrArg Label.mk (natRepr_injective ((String.append_right_inj "_L").1 h))

theorem Label.isToken_text (l : Label) : isToken l.text.toList = true := by
  have hletters : "_L".toList.all isTokenChar = true := by decide
  obtain ⟨-, hdigits⟩ := isToken_iff.1 (isToken_repr l.index)
  rw [text, String.toList_append, isToken_iff]
  exact ⟨by simp, List.forall_mem_append.2 ⟨List.all_eq_true.1 hletters, hdigits⟩⟩

/-- The line of an entry without its line break. -/
def Item.row : Item → String
  | mark l => l.text ++ ":"
  | instr i => "  " ++ i.text Label.text

theorem Item.line_eq_row (item : Item) : item.line = item.row ++ "\n" := by
  cases item with
  | mark l => simp [line, row, String.append_assoc]
  | instr i => rfl

theorem Item.newline_not_mem_row {item : Item} (h : ∀ i, item = .instr i → i.Worded) :
    '\n' ∉ item.row.toList := by
  cases item with
  | mark l =>
    have hlabel : '\n' ∉ l.text.toList := fun hmem =>
      absurd ((isToken_iff.1 l.isToken_text).2 _ hmem) (by decide)
    simpa [row] using hlabel
  | instr i => simpa [row] using Instr.newline_not_mem_text Label.isToken_text (h i rfl)

/-- The lines of a listing are those of the entries. -/
theorem Fragment.linesOf_text {f : Fragment} (h : ∀ i ∈ f.instrs, i.Worded) (rest : String) :
    linesOf (f.text ++ rest) = (f.items.map fun item => item.row.toList) ++ linesOf rest := by
  have hrows : ∀ r ∈ f.items.map Item.row, '\n' ∉ r.toList := by
    intro r hr
    obtain ⟨item, hitem, rfl⟩ := List.mem_map.1 hr
    refine Item.newline_not_mem_row fun i hi => h i ?_
    exact List.mem_filterMap.2 ⟨item, hitem, by rw [hi, Item.instr?]⟩
  have hlines := linesOf_join hrows rest
  rw [List.map_map, List.map_map] at hlines
  rw [text, funext Item.line_eq_row]
  exact hlines

namespace Listing

/-! ### The first pass -/

theorem label?_mark (l : Label) : label? (Item.mark l).row.toList = some l.text.toList := by
  have hrow : (Item.mark l).row.toList = l.text.toList ++ [':'] := by simp [Item.row]
  have hhead : (l.text.toList ++ [':']).head? = some '_' := by simp [Label.text]
  rw [hrow, label?, hhead, List.getLast?_concat, List.dropLast_concat]
  rfl

theorem next_mark (s : Scan) (l : Label) :
    s.next (Item.mark l).row.toList =
      { s with labels := (l.text.toList, s.lines.length) :: s.labels } := by
  rw [Scan.next, label?_mark]

theorem next_instr (s : Scan) {i : Instr Label} (h : i.Worded) :
    s.next (Item.instr i).row.toList =
      { s with lines := s.lines ++ [(i.text Label.text).toList] } := by
  have hrow : (Item.instr i).row.toList = [' ', ' '] ++ (i.text Label.text).toList := by
    simp [Item.row]
  have htrim : trim ([' ', ' '] ++ (i.text Label.text).toList) = (i.text Label.text).toList := by
    have hindent : [' ', ' '].all Char.isWhitespace = true := by decide
    refine trim_append (List.all_eq_true.1 hindent) fun c hc => isWhitespace_of_isTokenChar ?_
    rw [Instr.toList_text] at hc
    exact isTokenChar_of_mem_ends (Instr.isToken_of_mem_tokens Label.isToken_text h) hc
  rw [hrow, Scan.next, htrim]
  rfl

/-- The instructions of the code were kept, and its labels were recorded with their addresses. -/
structure Scanned (s : Scan) (code : List Item) : Prop where
  lines_eq : s.lines = (instrsIn code).map fun i => (i.text Label.text).toList
  lookup_eq : ∀ l : Label, s.labels.lookup l.text.toList = l.addressIn? code

namespace Scanned

variable {s : Scan} {c d : List Item}

theorem nil : Scanned {} [] := ⟨rfl, fun _ => rfl⟩

theorem mark (h : Scanned s c) {l : Label} (hl : l ∉ labelsIn c) :
    Scanned (s.next (Item.mark l).row.toList) (c ++ [.mark l]) := by
  rw [next_mark]
  refine ⟨by simp [h.lines_eq], fun m => ?_⟩
  by_cases hm : m = l
  · subst hm
    rw [List.lookup_cons_self, Label.addressIn?_of_mark hl, h.lines_eq, List.length_map, lineCount]
  · -- labels are compared as whole texts, so this marker does not hide another one
    have hne : m.text.toList ≠ l.text.toList := fun he =>
      hm (Label.text_injective (String.toList_injective he))
    rw [List.lookup_cons, beq_eq_false_iff_ne.2 hne, h.lookup_eq, Label.addressIn?_append_eq_or]
    simp [Label.addressIn?, Ne.symm hm]

theorem instr (h : Scanned s c) {i : Instr Label} (hi : i.Worded) :
    Scanned (s.next (Item.instr i).row.toList) (c ++ [.instr i]) := by
  rw [next_instr s hi]
  refine ⟨by simp [h.lines_eq], fun m => ?_⟩
  rw [h.lookup_eq, Label.addressIn?_append_eq_or]
  simp [Label.addressIn?]

/-- The first pass over more code. -/
theorem run (h : Scanned s c) (hlabels : (labelsIn (c ++ d)).Nodup)
    (hwords : ∀ i ∈ instrsIn d, i.Worded) :
    Scanned ((d.map fun item => item.row.toList).foldl Scan.next s) (c ++ d) := by
  induction d generalizing s c with
  | nil => rwa [List.append_nil]
  | cons item d ih =>
    rw [List.map_cons, List.foldl_cons]
    rw [List.append_cons] at hlabels ⊢
    cases item with
    | mark l =>
      have hnodup := hlabels
      rw [labelsIn_append, labelsIn_append] at hnodup
      have hl : l ∉ labelsIn c := fun hmem =>
        List.disjoint_of_nodup_append hnodup.of_append_left hmem List.mem_cons_self
      exact ih (h.mark hl) hlabels hwords
    | instr i =>
      obtain ⟨hi, hd⟩ := List.forall_mem_cons.1 hwords
      exact ih (h.instr hi) hlabels hd

end Scanned

theorem next_halt (s : Scan) :
    s.next "HALT".toList = { s with lines := s.lines ++ ["HALT".toList] } := rfl

/-- The first pass over the listing of a fragment keeps its lines and records its labels. -/
theorem exists_scan_text {f : Fragment} (hlabels : f.labels.Nodup)
    (hwords : ∀ i ∈ f.instrs, i.Worded) :
    ∃ labels, scan (linesOf (f.text ++ "HALT")) =
        { lines := f.lines.map fun i => (i.text Label.text).toList, labels } ∧
      ∀ l : Label, labels.lookup l.text.toList = l.addressIn? f.items := by
  have hscanned := Scanned.nil.run (d := f.items) hlabels hwords
  refine ⟨_, ?_, hscanned.lookup_eq⟩
  have hhalt : linesOf "HALT" = ["HALT".toList] := List.splitOn_eq_singleton (by decide)
  rw [Fragment.linesOf_text hwords, hhalt, scan, List.foldl_concat, next_halt, hscanned.lines_eq,
    Fragment.lines, List.map_append]
  rfl

/-! ### The second pass -/

theorem isJump_opcode {α : Type} (i : Instr α) : isJump i.opcode.toList = i.target?.isSome := by
  have htyped : ∀ (ty : Scalar) (mnemonic : String),
      isJump (ty.letter.toString ++ mnemonic).toList = false := by
    intro ty mnemonic
    rw [ty.toList_letter_append]
    cases ty <;> rfl
  cases i with
  | copy ty _ _ => exact htyped ty _
  | read ty _ => exact htyped ty _
  | print ty _ => exact htyped ty _
  | arith op ty _ _ _ => exact htyped ty _
  | compare op ty _ _ _ => exact htyped ty _
  | convert ty _ _ =>
    cases ty with
    | int =>
      show isJump "RTOI".toList = false
      decide
    | float =>
      show isJump "ITOR".toList = false
      decide
  | jump _ =>
    show isJump "JUMP".toList = true
    decide
  | jumpIfZero _ _ =>
    show isJump "JMPZ".toList = true
    decide
  | halt =>
    show isJump "HALT".toList = false
    decide

section Resolve

variable {labels : List (List Char × ℕ)} {line opcode target : List Char}
  {operands : List (List Char)} {n : ℕ}

theorem resolve_of_jump (hsplit : line.splitOn ' ' = opcode :: target :: operands)
    (hjump : isJump opcode = true) (hn : labels.lookup target = some n) :
    resolve labels line = [' '].intercalate (opcode :: (Nat.repr n).toList :: operands) := by
  simp only [resolve, hsplit, hn, hjump, if_true]

theorem resolve_of_not_jump (hsplit : line.splitOn ' ' = opcode :: operands)
    (hjump : isJump opcode = false) : resolve labels line = line := by
  unfold resolve
  rw [hsplit]
  cases operands with
  | nil => rfl
  | cons t ts => cases h : labels.lookup t <;> simp [h, hjump]

end Resolve

/-- Resolving the line of an instruction gives the line of the resolved instruction. -/
theorem resolve_text {labels : List (List Char × ℕ)} {address : Label → Option ℕ}
    (hlabels : ∀ l : Label, labels.lookup l.text.toList = address l) {i : Instr Label}
    {j : Instr ℕ} (hi : i.Worded) (hj : i.mapTarget address = some j) :
    resolve labels (i.text Label.text).toList = (j.text Nat.repr).toList := by
  have hopcode := Instr.opcode_of_mapTarget hj
  have htarget := Instr.target?_of_mapTarget hj
  have hjump := isJump_opcode i
  -- the lines differ in their targets only
  generalize hrest : i.dst?.toList ++ i.reads.map (fun o => o.1.text) = rest
  have hline : i.operands Label.text = (i.target?.map Label.text).toList ++ rest := by
    rw [Instr.operands_eq, hrest]
  have hline' : j.operands Nat.repr = (j.target?.map Nat.repr).toList ++ rest := by
    rw [Instr.operands_eq, Instr.dst?_of_mapTarget hj, (Instr.reads_of_mapTarget hj).1, hrest]
  have hsplit := Instr.splitOn_text Label.isToken_text hi
  rw [Instr.tokens, hline] at hsplit
  cases ht : i.target? with
  | none =>
    rw [ht] at hsplit hjump hline htarget
    rw [resolve_of_not_jump hsplit hjump, Instr.text, Instr.text, hopcode, hline, hline', htarget]
    rfl
  | some l =>
    rw [ht] at hsplit hjump htarget
    -- the resolved instruction is a jump too, so its target was found
    obtain ⟨n, hn⟩ : ∃ n, address l = some n := by
      rw [← hopcode, isJump_opcode, htarget] at hjump
      exact Option.isSome_iff_exists.1 hjump
    rw [resolve_of_jump hsplit hjump ((hlabels l).trans hn), Instr.toList_text, Instr.tokens,
      hopcode, hline', htarget, Option.bind_some, hn]
    rfl

end Listing

/-! ### Linking -/

/-- **Linking text.** Linking the listing of a fragment gives the text of the linked fragment, if
the variables of the fragment are words. They may be spelled like labels, and the signature may be
any text. -/
theorem link_listing {f : Fragment} {signature : String} {x : Executable}
    (hwords : ∀ i ∈ f.instrs, i.Worded) (h : f.link signature = .ok x) :
    Listing.link f.text signature = x.text := by
  obtain ⟨hlabels, hsignature, hlines⟩ := Fragment.link_ok_iff.1 h
  obtain ⟨labels, hscan, hlookup⟩ := Listing.exists_scan_text hlabels hwords
  have hhalt : (Instr.halt : Instr Label).Worded := by decide
  have hworded : ∀ i ∈ f.lines, i.Worded :=
    List.forall_mem_append.2 ⟨hwords, List.forall_mem_singleton.2 hhalt⟩
  have hresolved : (f.lines.map fun i => Listing.resolve labels (i.text Label.text).toList) =
      x.instrs.map fun j => (j.text Nat.repr).toList := by
    rw [← List.forall₂_eq_eq_eq, List.forall₂_map_left_iff, List.forall₂_map_right_iff]
    exact ((List.forall₂_and_left _ _).2 ⟨hworded, hlines⟩).imp fun i j hij =>
      Listing.resolve_text hlookup hij.1 hij.2
  have hlisting := congrArg (List.map fun line => String.ofList line ++ "\n") hresolved
  simp only [List.map_map, Function.comp_def, String.ofList_toList] at hlisting
  simp only [Listing.link, hscan, Executable.text, List.map_map, Function.comp_def, hlisting,
    hsignature]

/-- Labels that are the beginnings of labels, markers in front of markers and at the end, and
variables that are spelled like labels and like opcodes. -/
def Fragment.tangled : Fragment where
  items :=
    [.mark ⟨1⟩,
      .mark ⟨10⟩,
      .instr (.compare .lt .float "_L1" (.var "JUMP") (.lit (.float ⟨0x7FF0000000000000⟩))),
      .instr (.jumpIfZero ⟨101⟩ (.var "_L10")),
      .mark ⟨0⟩,
      .instr (.copy .int "_L10" (.var "_L1")),
      .instr (.jumpIfZero ⟨10⟩ (.var "_L101")),
      .instr (.jump ⟨0⟩),
      .mark ⟨101⟩]

theorem link_listing_tangled :
    Listing.link Fragment.tangled.text "two\n_L1: lines" =
      Executable.text
        { instrs :=
            [.compare .lt .float "_L1" (.var "JUMP") (.lit (.float ⟨0x7FF0000000000000⟩)),
              .jumpIfZero 5 (.var "_L10"),
              .copy .int "_L10" (.var "_L1"),
              .jumpIfZero 0 (.var "_L101"),
              .jump 2,
              .halt],
          signature := "two\n_L1: lines" } :=
  link_listing (by decide) rfl

end QuadCode
