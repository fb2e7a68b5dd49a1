import QuadCode.Proofs.Names

/-!
# Histories of a name supply

A supply is used by one request after the other: names are declared, temporaries
and labels are drawn, and types are asked for, in any order. The history of a
supply is the list of the requests with their replies.

* `NameSupply.Use` is a use of a supply that can fail and leaves a supply in any
  case; `NameSupply.run_declare` says that a refused declaration leaves the one
  that it found;
* `NameSupply.serve` answers a request, `NameSupply.after` and
  `NameSupply.history` do so for a list of them;
* `gained`: the names that a history brought into scope, with their types;
* `NameSupply.Records h`: the supply is what the history `h` says. A new supply
  is, and every request keeps it so (`NameSupply.Records.serve`).

What a supply may reply at any time follows from its history alone:
`supply_histories_write_once`.
-/

namespace QuadCode

/-- What a supply can be asked. -/
inductive Request
  | declare (name : String) (ty : Scalar)
  | freshTemp (ty : Scalar)
  | freshFlag
  | freshLabel
  | typeOf (name : String)
  | contains (name : String)
  deriving DecidableEq

/-- What it replies. -/
inductive Reply
  | accepted
  | refused (fault : Fault)
  | temp (name : String)
  | label (l : Label)
  | type (ty : Scalar)
  | truth (b : Bool)
  deriving DecidableEq

/-- Requests with their replies, the oldest first. -/
abbrev History := List (Request × Reply)

/-- The name that a request brought into scope. -/
def gain? : Request × Reply → Option (String × Scalar)
  | (.declare name ty, .accepted) => some (name, ty)
  | (.freshTemp ty, .temp name) => some (name, ty)
  | (.freshFlag, .temp name) => some (name, .int)
  | _ => none

/-- The names that were brought into scope, with their types: those whose declaration was accepted,
and the temporaries. -/
def gained (h : History) : List (String × Scalar) := h.filterMap gain?

/-- The label that a request was given. -/
def label? : Request × Reply → Option Label
  | (_, .label l) => some l
  | _ => none

/-- The labels that were given out. -/
def labelsGiven (h : History) : List Label := h.filterMap label?

theorem gained_concat (h : History) (e : Request × Reply) :
    gained (h ++ [e]) = gained h ++ (gain? e).toList := by
  cases he : gain? e <;> simp [gained, he]

theorem labelsGiven_concat (h : History) (e : Request × Reply) :
    labelsGiven (h ++ [e]) = labelsGiven h ++ (label? e).toList := by
  cases he : label? e <;> simp [labelsGiven, he]

/-- Reply with a result, or refuse. -/
def Reply.ofExcept {α : Type} (f : α → Reply) : Except Fault α → Reply
  | .ok a => f a
  | .error e => refused e

namespace NameSupply

/-- A use of a supply that can fail. What it has done to the supply by then stays done. -/
abbrev Use := ExceptT Fault (StateM NameSupply)

/-- Add a name that must not be in use. -/
def Use.declare (name : String) (ty : Scalar) : Use Unit := do
  let s ← get
  match s.scope.find? name with
  | some existing => throw (.redeclared name existing)
  | none => set { s with scope := s.scope.insert name ty }

/-- Look for a free temporary, start behind it the next time, and declare it. -/
def Use.freshTemp (ty : Scalar) : Use String := do
  let s ← get
  let n := s.scope.firstFree s.nextTemp
  set { s with nextTemp := n + 1 }
  Use.declare (tempName n) ty
  return tempName n

/-- The reply to a use, and the supply that it leaves. -/
def answer {α : Type} (s : NameSupply) (x : Use α) (f : α → Reply) : Reply × NameSupply :=
  let (r, t) := x.run s
  (.ofExcept f r, t)

/-- The reply to a request, and the supply behind it. -/
def serve (s : NameSupply) : Request → Reply × NameSupply
  | .declare name ty => s.answer (.declare name ty) fun _ => .accepted
  | .freshTemp ty => s.answer (.freshTemp ty) .temp
  | .freshFlag => s.answer (.freshTemp .int) .temp
  | .freshLabel => (.label s.freshLabel.1, s.freshLabel.2)
  | .typeOf name => (.ofExcept .type (s.scope.typeOf name), s)
  | .contains name => (.truth (s.scope.contains name), s)

/-- The supply behind a list of requests. -/
def after (s : NameSupply) : List Request → NameSupply
  | [] => s
  | r :: rs => (s.serve r).2.after rs

/-- The history of a list of requests. -/
def history (s : NameSupply) : List Request → History
  | [] => []
  | r :: rs => (r, (s.serve r).1) :: (s.serve r).2.history rs

theorem after_append (s : NameSupply) (rs later : List Request) :
    s.after (rs ++ later) = (s.after rs).after later := by
  induction rs generalizing s with
  | nil => rfl
  | cons r rs ih => exact ih _

@[simp] theorem map_fst_history (s : NameSupply) (rs : List Request) :
    (s.history rs).map Prod.fst = rs := by
  induction rs generalizing s with
  | nil => rfl
  | cons r rs ih => rw [history, List.map_cons, ih]

/-! ### Single requests -/

section

variable {s : NameSupply} {x : String} {ty : Scalar}

/-- A declaration does what `NameSupply.declare` says, and leaves the supply as it is if the name is
in use. -/
theorem run_declare (s : NameSupply) (x : String) (ty : Scalar) :
    (Use.declare x ty).run s =
      match s.declare x ty with
      | .ok t => (.ok (), t)
      | .error e => (.error e, s) := by
  show (match s.scope.find? x with
    | some existing => throw (.redeclared x existing)
    | none => set { s with scope := s.scope.insert x ty } : Use Unit).run s = _
  rw [declare, Scope.declare]
  cases s.scope.find? x with
  | none => rfl
  | some existing => rfl

/-- A temporary is drawn as `NameSupply.freshTemp` says: its declaration does not fail. -/
theorem run_freshTemp (s : NameSupply) (ty : Scalar) :
    (Use.freshTemp ty).run s = (.ok (s.freshTemp ty).1, (s.freshTemp ty).2) := by
  have hdeclare : (Use.declare (s.freshTemp ty).1 ty).run
      { s with nextTemp := s.scope.firstFree s.nextTemp + 1 } = (.ok (), (s.freshTemp ty).2) := by
    rw [run_declare, declare, s.declare_freshTemp ty]
    rfl
  show (Use.declare (s.freshTemp ty).1 ty >>= fun _ => pure (s.freshTemp ty).1).run
    { s with nextTemp := s.scope.firstFree s.nextTemp + 1 } = _
  rw [ExceptT.run_bind]
  simp only [bind, StateT.bind, hdeclare]
  rfl

theorem serve_declare_of_find? {existing : Scalar} (hx : s.scope.find? x = some existing) :
    s.serve (.declare x ty) = (.refused (.redeclared x existing), s) := by
  simp [serve, answer, run_declare, declare, Scope.declare, hx, Except.map, Reply.ofExcept]

theorem serve_declare_of_none (hx : s.scope.find? x = none) :
    s.serve (.declare x ty) = (.accepted, { s with scope := s.scope.insert x ty }) := by
  simp [serve, answer, run_declare, declare, Scope.declare, hx, Except.map, Reply.ofExcept]

theorem serve_freshTemp (s : NameSupply) (ty : Scalar) :
    s.serve (.freshTemp ty) = (.temp (s.freshTemp ty).1, (s.freshTemp ty).2) := by
  rw [serve, answer, run_freshTemp]
  rfl

theorem serve_freshFlag (s : NameSupply) : s.serve .freshFlag = s.serve (.freshTemp .int) := rfl

/-- A declaration that is refused leaves the supply as it is. -/
theorem serve_of_refused {e : Fault} (h : (s.serve (.declare x ty)).1 = .refused e) :
    (s.serve (.declare x ty)).2 = s := by
  cases hx : s.scope.find? x with
  | none => simp [serve_declare_of_none hx] at h
  | some existing => rw [serve_declare_of_find? hx]

theorem serve_typeOf_eq_type_iff :
    (s.serve (.typeOf x)).1 = .type ty ↔ s.scope.find? x = some ty := by
  rw [← Scope.typeOf_eq_ok_iff, serve]
  cases s.scope.typeOf x <;> simp [Reply.ofExcept]

theorem serve_contains_eq_true_iff :
    (s.serve (.contains x)).1 = .truth true ↔ ∃ ty, s.scope.find? x = some ty := by
  simp [serve, Scope.contains, Option.isSome_iff_exists]

end

/-- A request brings a name into scope that was not there, or leaves the scope as it is. -/
theorem scope_serve (s : NameSupply) (r : Request) :
    (gain? (r, (s.serve r).1) = none ∧ (s.serve r).2.scope = s.scope) ∨
      ∃ x ty, s.scope.find? x = none ∧ gain? (r, (s.serve r).1) = some (x, ty) ∧
        (s.serve r).2.scope = s.scope.insert x ty := by
  cases r with
  | declare x ty =>
    cases hx : s.scope.find? x with
    | none =>
      rw [serve_declare_of_none hx]
      exact Or.inr ⟨x, ty, hx, rfl, rfl⟩
    | some existing =>
      rw [serve_declare_of_find? hx]
      exact Or.inl ⟨rfl, rfl⟩
  | freshTemp ty =>
    rw [serve_freshTemp]
    exact Or.inr ⟨_, ty, s.find?_freshTemp ty, rfl, rfl⟩
  | freshFlag =>
    rw [serve_freshFlag, serve_freshTemp]
    exact Or.inr ⟨_, .int, s.find?_freshTemp .int, rfl, rfl⟩
  | freshLabel => exact Or.inl ⟨rfl, rfl⟩
  | typeOf x => exact Or.inl ⟨rfl, rfl⟩
  | contains x => exact Or.inl ⟨rfl, rfl⟩

/-- A request for a label gives out the next one, and no other request does. -/
theorem label_serve (s : NameSupply) (r : Request) :
    (r = .freshLabel ∧ label? (r, (s.serve r).1) = some ⟨s.nextLabel⟩ ∧
      (s.serve r).2.nextLabel = s.nextLabel + 1) ∨
    (r ≠ .freshLabel ∧ label? (r, (s.serve r).1) = none ∧
      (s.serve r).2.nextLabel = s.nextLabel) := by
  by_cases hr : r = .freshLabel
  · subst hr
    exact Or.inl ⟨rfl, rfl, rfl⟩
  · refine Or.inr ⟨hr, ?_⟩
    cases r with
    | declare x ty =>
      cases hx : s.scope.find? x with
      | none =>
        rw [serve_declare_of_none hx]
        exact ⟨rfl, rfl⟩
      | some existing =>
        rw [serve_declare_of_find? hx]
        exact ⟨rfl, rfl⟩
    | freshTemp ty =>
      rw [serve_freshTemp]
      exact ⟨rfl, rfl⟩
    | freshFlag =>
      rw [serve_freshFlag, serve_freshTemp]
      exact ⟨rfl, rfl⟩
    | freshLabel => exact absurd rfl hr
    | typeOf x =>
      rw [serve]
      cases s.scope.typeOf x <;> exact ⟨rfl, rfl⟩
    | contains x => exact ⟨rfl, rfl⟩

/-! ### Whole histories -/

/-- The supply is what the history says: the names in scope are those that were gained, each of them
once, and the labels that were given out are those below the next one. -/
structure Records (s : NameSupply) (h : History) : Prop where
  find?_iff : ∀ x ty, s.scope.find? x = some ty ↔ (x, ty) ∈ gained h
  nodup : ((gained h).map Prod.fst).Nodup
  labels : labelsGiven h = (List.range s.nextLabel).map Label.mk
  count : s.nextLabel = (h.map Prod.fst).count .freshLabel

theorem records_nil : ({} : NameSupply).Records [] where
  find?_iff _ _ := by simp [gained]
  nodup := List.nodup_nil
  labels := rfl
  count := rfl

namespace Records

variable {s : NameSupply} {h : History}

theorem not_mem_of_find? (hs : s.Records h) {x : String} (hx : s.scope.find? x = none) :
    x ∉ (gained h).map Prod.fst := by
  intro hmem
  obtain ⟨⟨y, ty⟩, hy, rfl⟩ := List.mem_map.1 hmem
  rw [(hs.find?_iff y ty).2 hy] at hx
  cases hx

/-- A request keeps supply and history in step. -/
theorem serve (hs : s.Records h) (r : Request) :
    (s.serve r).2.Records (h ++ [(r, (s.serve r).1)]) where
  find?_iff y u := by
    rw [gained_concat]
    rcases s.scope_serve r with ⟨hgain, hscope⟩ | ⟨x, ty, hx, hgain, hscope⟩
    · rw [hgain, hscope, Option.toList_none, List.append_nil, hs.find?_iff]
    · rw [hgain, hscope, Option.toList_some, List.mem_append, List.mem_singleton,
        Scope.find?_insert]
      by_cases hy : y = x
      · subst hy
        -- the name is new, so the history has it with the new type only
        have hnot : (y, u) ∉ gained h := fun hmem =>
          hs.not_mem_of_find? hx (List.mem_map_of_mem hmem)
        simp [hnot, eq_comm]
      · rw [if_neg hy, hs.find?_iff]
        simp [hy]
  nodup := by
    rw [gained_concat]
    rcases s.scope_serve r with ⟨hgain, -⟩ | ⟨x, ty, hx, hgain, -⟩
    · rw [hgain, Option.toList_none, List.append_nil]
      exact hs.nodup
    · rw [hgain, Option.toList_some, List.map_append, List.map_singleton, ← List.concat_eq_append]
      exact hs.nodup.concat (hs.not_mem_of_find? hx)
  labels := by
    rw [labelsGiven_concat, hs.labels]
    rcases s.label_serve r with ⟨-, hlabel, hnext⟩ | ⟨-, hlabel, hnext⟩
    · rw [hlabel, hnext, List.range_succ, List.map_append]
      rfl
    · rw [hlabel, hnext, Option.toList_none, List.append_nil]
  count := by
    rcases s.label_serve r with ⟨rfl, -, hnext⟩ | ⟨hr, -, hnext⟩
    · rw [hnext, hs.count]
      simp
    · rw [hnext, hs.count]
      simp [hr]

/-- So do any number of requests. -/
theorem after (hs : s.Records h) (rs : List Request) :
    (s.after rs).Records (h ++ s.history rs) := by
  induction rs generalizing s h with
  | nil => simpa [NameSupply.after, history] using hs
  | cons r rs ih =>
    have hrest := ih (hs.serve r)
    rwa [List.append_assoc, List.singleton_append] at hrest

end Records

/-- Types stay as they are. -/
theorem scope_le_after (s : NameSupply) (rs : List Request) : s.scope ≤ (s.after rs).scope := by
  induction rs generalizing s with
  | nil => exact le_rfl
  | cons r rs ih =>
    refine le_trans ?_ (ih (s.serve r).2)
    rcases s.scope_serve r with ⟨-, hscope⟩ | ⟨x, ty, hx, -, hscope⟩
    · rw [hscope]
    · rw [hscope]
      exact Scope.le_insert hx ty

end NameSupply

/-- Whatever was asked of a new supply before,
* the names that were declared and drawn are distinct, and the declaration of a name that is there
  is refused with the type that it has;
* a temporary can always be drawn, and declared under its name;
* a type that was once replied is replied ever after;
* types and membership are those of the names that were gained;
* a declaration that is refused changes no later history;
* the labels are numbered by the requests for labels alone. -/
theorem supply_histories_write_once (rs : List Request) :
    ((gained (NameSupply.history {} rs)).map Prod.fst).Nodup ∧
    (∀ x ty other, (x, ty) ∈ gained (NameSupply.history {} rs) →
      ((NameSupply.after {} rs).serve (.declare x other)).1 = .refused (.redeclared x ty)) ∧
    (∀ ty, ∃ x t, (NameSupply.after {} rs).serve (.freshTemp ty) = (.temp x, t) ∧
      (NameSupply.after {} rs).scope.declare x ty = .ok t.scope) ∧
    (∃ x t, (NameSupply.after {} rs).serve .freshFlag = (.temp x, t) ∧
      (NameSupply.after {} rs).scope.declare x .int = .ok t.scope) ∧
    (∀ x ty later, ((NameSupply.after {} rs).serve (.typeOf x)).1 = .type ty →
      ((NameSupply.after {} (rs ++ later)).serve (.typeOf x)).1 = .type ty) ∧
    (∀ x ty, ((NameSupply.after {} rs).serve (.typeOf x)).1 = .type ty ↔
      (x, ty) ∈ gained (NameSupply.history {} rs)) ∧
    (∀ x, ((NameSupply.after {} rs).serve (.contains x)).1 = .truth true ↔
      ∃ ty, (x, ty) ∈ gained (NameSupply.history {} rs)) ∧
    (∀ x ty e later, ((NameSupply.after {} rs).serve (.declare x ty)).1 = .refused e →
      (NameSupply.after {} (rs ++ [.declare x ty])).history later =
        (NameSupply.after {} rs).history later) ∧
    labelsGiven (NameSupply.history {} rs) =
      (List.range (rs.count .freshLabel)).map Label.mk := by
  have hrec : (NameSupply.after {} rs).Records (NameSupply.history {} rs) :=
    NameSupply.records_nil.after rs
  refine ⟨hrec.nodup, fun x ty other hx => ?_, fun ty => ?_, ?_, fun x ty later hx => ?_,
    fun x ty => ?_, fun x => ?_, fun x ty e later he => ?_, ?_⟩
  · rw [NameSupply.serve_declare_of_find? ((hrec.find?_iff x ty).2 hx)]
  · exact ⟨_, _, NameSupply.serve_freshTemp _ ty, NameSupply.declare_freshTemp _ ty⟩
  · exact ⟨_, _, NameSupply.serve_freshTemp _ .int, NameSupply.declare_freshTemp _ .int⟩
  · rw [NameSupply.serve_typeOf_eq_type_iff] at hx ⊢
    rw [NameSupply.after_append]
    exact NameSupply.scope_le_after _ later hx
  · rw [NameSupply.serve_typeOf_eq_type_iff, hrec.find?_iff]
  · simp only [NameSupply.serve_contains_eq_true_iff, hrec.find?_iff]
  · rw [NameSupply.after_append]
    exact congrArg (NameSupply.history · later) (NameSupply.serve_of_refused he)
  · rw [hrec.labels, hrec.count, NameSupply.map_fst_history]

/-- Names of temporaries are declared before, between and after the temporaries. -/
theorem supply_histories_write_once_interleaved :
    let rs : List Request := [.declare "_t1" .float, .freshTemp .float, .freshLabel, .freshFlag,
      .declare "_t3" .int, .freshTemp .int, .freshLabel]
    let s : NameSupply := NameSupply.after {} rs
    gained (NameSupply.history {} rs) =
      [("_t1", .float), ("_t0", .float), ("_t2", .int), ("_t3", .int), ("_t4", .int)] ∧
    ["_t1", "_t0", "_t2", "_t3", "_t4"].Nodup ∧
    (s.serve (.declare "_t0" .int)).1 = .refused (.redeclared "_t0" .float) ∧
    (s.serve (.typeOf "_t2")).1 = .type .int ∧
    (∀ later, ((NameSupply.after {} (rs ++ later)).serve (.typeOf "_t2")).1 = .type .int) ∧
    (∀ later, (NameSupply.after {} (rs ++ [.declare "_t0" .int])).history later =
      s.history later) ∧
    labelsGiven (NameSupply.history {} rs) = [⟨0⟩, ⟨1⟩] := by
  intro rs s
  have hgained : gained (NameSupply.history {} rs) =
      [("_t1", .float), ("_t0", .float), ("_t2", .int), ("_t3", .int), ("_t4", .int)] := by
    decide +kernel
  obtain ⟨hnodup, hrefused, -, -, hlater, htype, -, hsame, hlabels⟩ :=
    supply_histories_write_once rs
  rw [hgained] at hnodup hrefused htype
  have ht0 : (s.serve (.declare "_t0" .int)).1 = .refused (.redeclared "_t0" .float) :=
    hrefused "_t0" .float .int (by decide)
  have ht2 : (s.serve (.typeOf "_t2")).1 = .type .int := (htype "_t2" .int).2 (by decide)
  exact ⟨hgained, hnodup, ht0, ht2, fun later => hlater "_t2" .int later ht2,
    fun later => hsame "_t0" .int _ later ht0, hlabels⟩

end QuadCode
