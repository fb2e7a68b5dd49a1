import QuadCode.Proofs.Renaming

/-!
# Declarations that matter

The scope is asked for two things when a body is lowered: for the types of the
names that the body mentions, and whether the name of a temporary is taken. So
declarations that agree on these give the same code, in whatever order and in
whatever groups they stand, and whatever else they declare.

* `Correspondence.same`: names that are mentioned correspond to themselves;
* `Program.lower_eq_of_types`: programs whose declarations agree on what matters
  are lowered alike;
* `only_used_declarations_matter`: the same for every body, with the case of
  declarations that are moved, regrouped or not used.
-/

namespace QuadCode

/-- The names that are mentioned correspond to themselves, and so do all literals. -/
def Correspondence.same (mentioned : List String) : Correspondence :=
  .ofNames (fun x y => x ∈ mentioned ∧ y = x)
    (by
      rintro x x' _ _ ⟨-, rfl⟩ ⟨-, rfl⟩
      exact Iff.rfl)
    (by
      rintro x _ ⟨-, rfl⟩ n
      exact Iff.rfl)

namespace Correspondence

variable {mentioned : List String}

theorem Written.eq_of_same {x y : String} (h : (same mentioned).Written x y) : y = id x := by
  rcases h with ⟨-, rfl⟩ | ⟨n, rfl, rfl⟩ <;> rfl

theorem eq_of_codeLike_same {c d : List Item} (h : CodeLike (same mentioned) c d) : c = d := by
  rw [← List.forall₂_eq_eq_eq]
  refine h.imp fun a b hab => ?_
  cases hab with
  | mark l => rfl
  | instr hij =>
    have heq := hij.eq_rename Written.eq_of_same id
    rw [heq, Instr.rename_id]

theorem eq_of_ends_same {α : Type} {a b : Except Fault α} (h : (same mentioned).Ends Eq a b) :
    a = b := by
  cases h with
  | ok hab => rw [hab]
  | error he =>
    have heq := he.eq_rename (r := id) And.right
    rw [heq, Fault.rename_id]

end Correspondence

/-- Names that are distinct and not in scope can be declared. -/
theorem Scope.exists_declareAll {s : Scope} {vars : List (String × Scalar)}
    (hnodup : (vars.map Prod.fst).Nodup) (hfree : ∀ v ∈ vars, s.find? v.1 = none) :
    ∃ t, s.declareAll vars = .ok t := by
  induction vars generalizing s with
  | nil => exact ⟨s, rfl⟩
  | cons v vars ih =>
    obtain ⟨hv, hvars⟩ := List.forall_mem_cons.1 hfree
    rw [List.map_cons, List.nodup_cons] at hnodup
    have hfree' : ∀ w ∈ vars, (s.insert v.1 v.2).find? w.1 = none := by
      intro w hw
      have hne : w.1 ≠ v.1 := ne_of_mem_of_not_mem (List.mem_map_of_mem hw) hnodup.1
      rw [find?_insert, if_neg hne, hvars w hw]
    obtain ⟨t, ht⟩ := ih hnodup.2 hfree'
    refine ⟨t, ?_⟩
    rw [declareAll, List.foldlM_cons, declare_eq_ok_iff.2 ⟨hv, rfl⟩]
    exact ht

namespace Program

/-- No name is declared twice. -/
def DeclaresOnce (p : Program) : Prop := (p.declared.map Prod.fst).Nodup

instance (p : Program) : Decidable p.DeclaresOnce := inferInstanceAs (Decidable (List.Nodup _))

variable {p q : Program}

theorem isSome_types_iff {x : String} :
    (p.types x).isSome ↔ x ∈ p.declared.map Prod.fst := by
  rw [← not_iff_not, Option.not_isSome_iff_eq_none, types, List.lookup_eq_none_iff, List.mem_map]
  push Not
  exact forall₂_congr fun v _ => bne_iff_ne.trans ne_comm

namespace DeclaresOnce

theorem exists_scope (h : p.DeclaresOnce) :
    ∃ scope, ({} : Scope).declareAll p.declared = .ok scope :=
  Scope.exists_declareAll h fun v _ => Scope.find?_empty v.1

theorem types_eq_some_iff (h : p.DeclaresOnce) {x : String} {ty : Scalar} :
    p.types x = some ty ↔ (x, ty) ∈ p.declared := by
  obtain ⟨scope, hscope⟩ := h.exists_scope
  rw [← find?_of_declareAll hscope, Scope.find?_of_declareAll hscope]
  simp

/-- A name that only the kept declarations can be about keeps its type. -/
theorem types_eq_of_perm (hp : p.DeclaresOnce) (hq : q.DeclaresOnce)
    {kept old new : List (String × Scalar)} (hold : p.declared.Perm (kept ++ old))
    (hnew : q.declared.Perm (kept ++ new)) {x : String} (hx : x ∉ (old ++ new).map Prod.fst) :
    p.types x = q.types x := by
  have hother : ∀ {ty}, (x, ty) ∉ old ∧ (x, ty) ∉ new := by
    intro ty
    rw [← not_or, ← List.mem_append]
    exact fun hmem => hx (List.mem_map_of_mem hmem)
  refine Option.ext fun ty => ?_
  rw [hp.types_eq_some_iff, hq.types_eq_some_iff, hold.mem_iff, hnew.mem_iff]
  simp [hother]

end DeclaresOnce

/-- Once its names are declared, a program is lowered by lowering its body. -/
theorem lower_eq_of_declareAll {scope : Scope}
    (h : ({} : Scope).declareAll p.declared = .ok scope) :
    p.lower = (Stmt.lowerAll p.body { scope }).map fun r => { items := r.1 } := by
  have hdecl : Lower.declareAll p.declared {} = .ok ((), { scope }) := by
    rw [Lower.declareAll, h]
    rfl
  rw [lower, lowerItems, StateT.run_bind, StateT.run, hdecl]
  rfl

/-- The scopes of declarations may differ, but not in what lowering asks for. -/
theorem supply_like_of_types {scope scope' : Scope}
    (hp : ({} : Scope).declareAll p.declared = .ok scope)
    (hq : ({} : Scope).declareAll q.declared = .ok scope')
    (htypes : ∀ x ∈ p.mentioned, p.types x = q.types x)
    (htemps : ∀ n, tempName n ∈ p.declared.map Prod.fst ↔ tempName n ∈ q.declared.map Prod.fst) :
    NameSupply.Like (.same p.mentioned) { scope } { scope := scope' } where
  find?_eq := by
    rintro x y ⟨hx, hy⟩
    rw [find?_of_declareAll hp, find?_of_declareAll hq, htypes x hx, hy]
  contains_eq n := by
    rw [Bool.eq_iff_iff, Scope.contains, Scope.contains, find?_of_declareAll hp,
      find?_of_declareAll hq, isSome_types_iff, isSome_types_iff]
    exact htemps n
  nextTemp_eq := rfl
  nextLabel_eq := rfl

theorem body_like_same (p : Program) : Stmt.LikeAll (.same p.mentioned) p.body p.body := by
  have hself : Stmt.LikeAll (.same p.mentioned) p.body (Stmt.renameAll id p.body) :=
    Stmt.likeAll_renameAll_of (fun st _ => st.like_rename fun _ => rfl) fun x hx => ⟨hx, rfl⟩
  rwa [Stmt.renameAll_id_of fun st _ => st.rename_id] at hself

/-- Programs with one body are lowered alike if their declarations agree on the names that it
mentions and declare the same names of temporaries. -/
theorem lower_eq_of_types (hbody : p.body = q.body) (hp : p.DeclaresOnce) (hq : q.DeclaresOnce)
    (htypes : ∀ x ∈ p.mentioned, p.types x = q.types x)
    (htemps : ∀ n, tempName n ∈ p.declared.map Prod.fst ↔ tempName n ∈ q.declared.map Prod.fst) :
    p.lower = q.lower := by
  obtain ⟨scope, hscope⟩ := hp.exists_scope
  obtain ⟨scope', hscope'⟩ := hq.exists_scope
  rw [lower_eq_of_declareAll hscope, lower_eq_of_declareAll hscope', ← hbody]
  have hends := Stmt.lowerAll_alike p.body_like_same
    (supply_like_of_types hscope hscope' htypes htemps)
  refine Correspondence.eq_of_ends_same (hends.map fun r r' hr => ?_)
  rw [Correspondence.eq_of_codeLike_same hr.1]

/-- Equal symbolic code gives equal texts. -/
theorem compile_eq_of_lower (h : p.lower = q.lower) (o : Options) : p.compile o = q.compile o := by
  rw [compile, compile, build, build, h]

end Program

/-- **Declarations.** What a program is lowered to depends on its body, on the types of the names
that the body mentions and on which names of temporaries are declared. So declarations can be
moved and grouped in other ways, and variables that are not used, other than such names, can be
added and removed. -/
theorem only_used_declarations_matter {p q : Program} (hbody : p.body = q.body)
    (hp : p.DeclaresOnce) (hq : q.DeclaresOnce) :
    ((∀ x ∈ p.mentioned, p.types x = q.types x) →
      (∀ n, tempName n ∈ p.declared.map Prod.fst ↔ tempName n ∈ q.declared.map Prod.fst) →
      p.lower = q.lower ∧ ∀ o, p.compile o = q.compile o) ∧
    ∀ kept old new : List (String × Scalar),
      p.declared.Perm (kept ++ old) → q.declared.Perm (kept ++ new) →
      (∀ x ∈ (old ++ new).map Prod.fst, x ∉ p.mentioned ∧ ∀ n, x ≠ tempName n) →
      p.lower = q.lower ∧ ∀ o, p.compile o = q.compile o := by
  have hboth : p.lower = q.lower → p.lower = q.lower ∧ ∀ o, p.compile o = q.compile o :=
    fun h => ⟨h, Program.compile_eq_of_lower h⟩
  refine ⟨fun htypes htemps => hboth (Program.lower_eq_of_types hbody hp hq htypes htemps), ?_⟩
  intro kept old new hold hnew hunused
  refine hboth (Program.lower_eq_of_types hbody hp hq (fun x hx => ?_) fun n => ?_)
  · exact hp.types_eq_of_perm hq hold hnew fun hmem => (hunused x hmem).1 hx
  · rw [← Program.isSome_types_iff, ← Program.isSome_types_iff,
      hp.types_eq_of_perm hq hold hnew fun hmem => (hunused _ hmem).2 n rfl]

theorem only_used_declarations_matter_double :
    let body : List Stmt := [.output (.arith .add (.var "n") (.var "n"))]
    let p : Program := ⟨[⟨["n", "spare"], .int⟩, ⟨["_t1"], .float⟩], body⟩
    let retyped : Program := ⟨[⟨["_t1"], .int⟩, ⟨["n"], .int⟩], body⟩
    let moved : Program := ⟨[⟨["_t1"], .float⟩, ⟨["n"], .int⟩], body⟩
    p.lower = retyped.lower ∧ ∀ o, p.compile o = moved.compile o := by
  intro body p retyped moved
  have hspare : ∀ n, "spare" ≠ tempName n := ne_tempName (by decide)
  have hp : p.DeclaresOnce := by decide +kernel
  constructor
  · -- a name of a temporary that is not mentioned has two types
    have hretyped :=
      only_used_declarations_matter (p := p) (q := retyped) rfl hp (by decide +kernel)
    refine (hretyped.1 (by decide +kernel) fun n => ?_).1
    simp [p, retyped, Program.declared, (hspare n).symm, or_comm]
  · -- a variable that is not used is removed, and the others are moved
    have hmoved := only_used_declarations_matter (p := p) (q := moved) rfl hp (by decide +kernel)
    refine (hmoved.2 moved.declared [("spare", .int)] [] (by decide +kernel) (by simp) ?_).2
    intro x hx
    obtain rfl : x = "spare" := by simpa using hx
    exact ⟨by decide +kernel, hspare⟩

end QuadCode
