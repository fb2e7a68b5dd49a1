import QuadCode.Proofs.Histories
import Mathlib.Computability.StateTransition
import Mathlib.Data.Set.Card

/-!
# The search for a temporary

A temporary is found by trying one number after the other, and nothing says in
advance how many have to be tried. The search ends because a number is passed
over only for a name in use: distinct numbers make distinct names, and a scope
has finitely many.

* `Search.step` tries a number. The search is over once a name was found;
* `Scope.tempsFrom`: the temporaries in use from a number on. A step that finds
  nothing leaves one less of them ahead (`Scope.ncard_tempsFrom_of_contains`);
* `Scope.firstFree` obeys the equations of the search
  (`Scope.firstFree_of_contains`, `Scope.firstFree_of_not_contains`), so the
  search finds it, in no more steps than there are temporaries ahead and one
  (`Search.exists_run`).
-/

namespace QuadCode

open StateTransition

namespace Scope

/-- The temporaries in use whose numbers are `n` or more. -/
def tempsFrom (s : Scope) (n : ℕ) : Set String :=
  {x | s.contains x = true ∧ ∃ k, n ≤ k ∧ x = tempName k}

variable {s : Scope} {n : ℕ}

theorem finite_tempsFrom (s : Scope) (n : ℕ) : (s.tempsFrom n).Finite :=
  (s.entries.map Prod.fst).finite_toSet.subset fun _ hx => mem_map_fst_of_contains hx.1

theorem tempsFrom_of_contains (h : s.contains (tempName n) = true) :
    s.tempsFrom n = Insert.insert (tempName n) (s.tempsFrom (n + 1)) := by
  ext x
  constructor
  · rintro ⟨hx, k, hk, rfl⟩
    rcases hk.eq_or_lt with rfl | hlt
    · exact Set.mem_insert _ _
    · exact Set.mem_insert_of_mem _ ⟨hx, k, hlt, rfl⟩
  · rintro (rfl | ⟨hx, k, hk, rfl⟩)
    · exact ⟨h, n, le_rfl, rfl⟩
    · exact ⟨hx, k, Nat.le_of_succ_le hk, rfl⟩

/-- Passing over a temporary in use leaves one less of them ahead. -/
theorem ncard_tempsFrom_of_contains (h : s.contains (tempName n) = true) :
    (s.tempsFrom n).ncard = (s.tempsFrom (n + 1)).ncard + 1 := by
  have hnot : tempName n ∉ s.tempsFrom (n + 1) := by
    rintro ⟨-, k, hk, hname⟩
    exact absurd (tempName_injective hname) (Nat.ne_of_lt hk)
  rw [tempsFrom_of_contains h, Set.ncard_insert_of_notMem hnot (s.finite_tempsFrom (n + 1))]

theorem firstFree_of_not_contains (h : s.contains (tempName n) = false) : s.firstFree n = n :=
  (s.isLeast_firstFree n).unique ⟨⟨le_rfl, h⟩, fun _ hk => hk.1⟩

theorem firstFree_of_contains (h : s.contains (tempName n) = true) :
    s.firstFree n = s.firstFree (n + 1) := by
  have hnext := s.isLeast_firstFree (n + 1)
  refine (s.isLeast_firstFree n).unique ⟨⟨Nat.le_of_succ_le hnext.1.1, hnext.1.2⟩, ?_⟩
  rintro k ⟨hn, hfree⟩
  -- the number that is passed over is not free
  have hne : n ≠ k := by
    rintro rfl
    rw [h] at hfree
    cases hfree
  exact hnext.2 ⟨lt_of_le_of_ne hn hne, hfree⟩

end Scope

/-- A search for a temporary: the number to be tried next, and the name that was found. -/
structure Search where
  next : ℕ
  found : Option String

namespace Search

/-- Try a number and move past it, unless a name was found. -/
def step (s : Scope) (q : Search) : Option Search :=
  match q.found with
  | some _ => none
  | none =>
    let candidate := tempName q.next
    some ⟨q.next + 1, if s.contains candidate then none else some candidate⟩

variable {s : Scope} {n : ℕ}

theorem step_of_found (s : Scope) (n : ℕ) (name : String) : step s ⟨n, some name⟩ = none := rfl

theorem step_of_contains (h : s.contains (tempName n) = true) :
    step s ⟨n, none⟩ = some ⟨n + 1, none⟩ := by
  simp [step, h]

theorem step_of_not_contains (h : s.contains (tempName n) = false) :
    step s ⟨n, none⟩ = some ⟨n + 1, some (tempName n)⟩ := by
  simp [step, h]

/-- The temporaries ahead bound the steps of the search, and it ends at the first free number. -/
theorem exists_run (s : Scope) (n : ℕ) :
    ∃ run : EvalsTo (step s) ⟨n, none⟩
        (some ⟨s.firstFree n + 1, some (tempName (s.firstFree n))⟩),
      run.steps ≤ (s.tempsFrom n).ncard + 1 := by
  induction hcount : (s.tempsFrom n).ncard using Nat.strong_induction_on generalizing n with
  | _ count ih =>
    subst hcount
    cases h : s.contains (tempName n) with
    | false =>
      rw [Scope.firstFree_of_not_contains h]
      exact ⟨⟨1, step_of_not_contains h⟩, Nat.le_add_left 1 _⟩
    | true =>
      have hless := Scope.ncard_tempsFrom_of_contains h
      obtain ⟨run, hsteps⟩ := ih _ (by omega) (n + 1) rfl
      rw [Scope.firstFree_of_contains h]
      refine ⟨EvalsTo.trans _ _ _ _ ⟨1, step_of_contains h⟩ run, ?_⟩
      show run.steps + 1 ≤ (s.tempsFrom n).ncard + 1
      omega

end Search

/-- **The search for a temporary ends, at the least number that is free.** It takes at most one step
more than there are temporaries in use from the counter on. The name that it finds can be declared,
and it is the one that is drawn: the counter moves past it, and the scope gains this name with the
type that was asked for and nothing else. -/
theorem temporary_search_finds_least (s : NameSupply) (ty : Scalar) :
    ∃ m, IsLeast {n | s.nextTemp ≤ n ∧ s.scope.contains (tempName n) = false} m ∧
      (∃ run : EvalsTo (Search.step s.scope) ⟨s.nextTemp, none⟩ (some ⟨m + 1, some (tempName m)⟩),
        run.steps ≤ (s.scope.tempsFrom s.nextTemp).ncard + 1 ∧
        Search.step s.scope ⟨m + 1, some (tempName m)⟩ = none) ∧
      s.scope.declare (tempName m) ty = .ok (s.freshTemp ty).2.scope ∧
      (s.freshTemp ty).1 = tempName m ∧
      (s.freshTemp ty).2.nextTemp = m + 1 ∧
      (s.freshTemp ty).2.nextLabel = s.nextLabel ∧
      ∀ x, (s.freshTemp ty).2.scope.find? x =
        if x = tempName m then some ty else s.scope.find? x := by
  refine ⟨s.scope.firstFree s.nextTemp, s.scope.isLeast_firstFree s.nextTemp, ?_,
    s.declare_freshTemp ty, rfl, rfl, s.nextLabel_freshTemp ty, fun x => ?_⟩
  · obtain ⟨run, hsteps⟩ := Search.exists_run s.scope s.nextTemp
    exact ⟨run, hsteps, Search.step_of_found _ _ _⟩
  · exact s.scope.find?_insert _ x ty

/-- Names with a gap between them, and one that is not written as a temporary is. -/
example :
    (NameSupply.freshTemp
      { scope := ⟨[("_t5", .int), ("_t04", .int), ("_t3", .float), ("_t2", .int)]⟩, nextTemp := 2 }
      .float).1 = "_t4" := by
  decide

end QuadCode
