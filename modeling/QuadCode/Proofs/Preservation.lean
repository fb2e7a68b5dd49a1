import QuadCode.Proofs.Simulation
import QuadCode.Proofs.Statements

/-!
# Compiled programs mean what the source says

A program and its executable run in step. Started in the same store with the same
input, they both end, both stick or both run for ever, with the same output and
the same values of the declared variables.

The main statement is `build_preserves_meaning`.
-/

namespace QuadCode

open StateTransition

/-! ### What a step does to the world -/

/-- The ways in which a step of a program or of the machine changes the world. -/
inductive World.Change (N : Numerics) (w : World) : World → Prop where
  | none : Change N w w
  | set (name : String) (v : Literal) : Change N w (w.set name v)
  | read {ty : Scalar} {name : String} {u : World} : w.read N ty name = some u → Change N w u
  | print (v : Literal) : Change N w (w.print v)

namespace World.Change

variable {N : Numerics} {w u : World}

theorem output (h : w.Change N u) : u.output = w.output ∨ ∃ v, u.output = w.output ++ [v] := by
  cases h with
  | none => exact Or.inl rfl
  | set name v => exact Or.inl rfl
  | read hread =>
    obtain ⟨rest, v, -, rfl⟩ := World.exists_of_read hread
    exact Or.inl rfl
  | print v => exact Or.inr ⟨v, rfl⟩

/-- A variable that has a value keeps one. -/
theorem assigned (h : w.Change N u) {y : String} (hy : w.store y ≠ .none) : u.store y ≠ .none := by
  have hset : ∀ (w : World) (name : String) (v : Literal), w.store y ≠ .none →
      (w.set name v).store y ≠ .none := by
    intro w name v hw
    by_cases hname : y = name
    · simp [hname]
    · simpa [hname] using hw
  cases h with
  | none => exact hy
  | set name v => exact hset w name v hy
  | read hread =>
    obtain ⟨rest, v, -, rfl⟩ := World.exists_of_read hread
    exact hset _ _ v hy
  | print v => exact hy

end World.Change

theorem Instr.change_of_exec {α : Type} {N : Numerics} {w u : World} {i : Instr α}
    {control : Control α} (h : i.exec N w = some (control, u)) : w.Change N u := by
  rcases Instr.effect_of_exec h with ⟨-, rfl | ⟨v, rfl⟩⟩ | ⟨d, -, ⟨v, -, rfl⟩ | hread⟩
  · exact .none
  · exact .print v
  · exact .set d.1 v
  · exact .read hread

theorem Config.appends (N : Numerics) (code : List (Instr ℕ)) :
    Appends (Config.step N code) fun c => c.world.output := by
  intro c d h
  obtain ⟨i, control, -, hexec⟩ := Config.exec_of_step h
  exact (Instr.change_of_exec hexec).output

namespace Source

variable {N : Numerics} {types : String → Option Scalar} {a b : Source}

/-- A step of a program changes the world in one way. -/
theorem change_of_step (h : a.step N types = some b) : a.world.Change N b.world := by
  obtain ⟨rest, w⟩ := a
  cases rest with
  | nil => cases h
  | cons st rest =>
    cases st with
    | assign target e =>
      rw [Source.step] at h
      simp only [Option.bind_eq_bind, Option.bind_eq_some_iff, Option.pure_def,
        Option.some.injEq] at h
      obtain ⟨v, -, ty, -, u, -, rfl⟩ := h
      exact .set target u
    | input target =>
      rw [Source.step] at h
      simp only [Option.bind_eq_bind, Option.bind_eq_some_iff, Option.pure_def,
        Option.some.injEq] at h
      obtain ⟨ty, -, u, hu, rfl⟩ := h
      exact .read hu
    | output e =>
      obtain ⟨v, -, he⟩ := Option.bind_eq_some_iff.1 h
      cases he
      exact .print v
    | ite c yes no =>
      obtain ⟨p, -, he⟩ := Option.bind_eq_some_iff.1 h
      cases he
      exact .none
    | loop c body =>
      obtain ⟨p, -, he⟩ := Option.bind_eq_some_iff.1 h
      cases he
      exact .none
    | switch e cases otherwise =>
      obtain ⟨v, -, he⟩ := Option.bind_eq_some_iff.1 h
      cases v with
      | float x => cases he
      | int n =>
        cases he
        exact .none
    | leave => cases h
    | block body =>
      cases h
      exact .none

theorem appends (N : Numerics) (types : String → Option Scalar) :
    Appends (Source.step N types) fun a => a.world.output :=
  fun _ _ h => (change_of_step h).output

theorem Ready.of_step {D : Scope} (hready : a.Ready N D) (h : a.step N D.find? = some b) :
    b.Ready N D := by
  rcases hready with hassigned | hnever
  · exact Or.inl fun y hy => (change_of_step h).assigned (hassigned y hy)
  · exact Or.inr fun c hc => hnever c (.head h hc)

end Source

/-! ### Running in step -/

namespace Installation

variable (I : Installation) (D : Scope)

/-- The statements that are left follow where the machine is, and the worlds agree. -/
structure Matches (a : Source) (c : Config) : Prop where
  follows : I.Follows D a.rest c.line
  same : a.world.SameOn D c.world
  fits : c.world.Fits D
  ready : a.Ready I.numerics D

/-- Both runs have ended, or both stick, in worlds that agree. -/
structure Ends (a : Source) (c : Config) : Prop where
  ended : a.rest = [] ∧ c.Halted I.lines ∨ a.rest ≠ [] ∧ c.Stuck I.numerics I.lines
  same : a.world.SameOn D c.world

variable {I D}

theorem mem_eval_of_reaches {c d : Config} (h : Reaches I.step c d) (hd : I.step d = none) :
    d ∈ eval I.step c := StateTransition.mem_eval.2 ⟨h, hd⟩

theorem simulation (hD : D ≤ I.scope) :
    Simulation (Source.step I.numerics D.find?) I.step (I.Matches D) (I.Ends D) Source.size where
  step := by
    rintro ⟨rest, w⟩ a' ⟨line, u⟩ ⟨hfollows, hsame, hfits, hready⟩ hstep
    cases rest with
    | nil => cases hstep
    | cons st rest =>
      -- jumps lead from the line to the code of the first statement
      obtain ⟨b, b', hb, hst, hrest⟩ := hfollows.exists_holds u
      rcases st.advances hst hrest hsame hfits hready with
        ⟨next, d, v, hnext, hfollows', hsame', hreach⟩ | ⟨hnone, -⟩
      · obtain rfl := Option.some.inj (hnext.symm.trans hstep)
        have hall : Reaches I.step ⟨line, u⟩ ⟨d, v⟩ := by
          rcases hreach with hreach | ⟨hreach, -⟩
          · exact hb.trans hreach.to_reflTransGen
          · exact hb.trans hreach
        have hfits' := (Config.fits_of_reaches I.wellTyped hD hfits hall).1
        refine ⟨⟨d, v⟩, ⟨hfollows', hsame', hfits', hready.of_step hstep⟩, ?_⟩
        rcases hreach with hreach | ⟨-, hlt⟩
        · exact Or.inl (Relation.TransGen.trans_right hb hreach)
        · exact Or.inr ⟨hall, hlt⟩
      · exact absurd (hnone.symm.trans hstep) (by simp)
  stop := by
    rintro ⟨rest, w⟩ ⟨line, u⟩ ⟨hfollows, hsame, hfits, hready⟩ hstop
    cases rest with
    | nil =>
      obtain ⟨b, hb, hhalt⟩ := hfollows.exists_halt u
      exact ⟨⟨b, u⟩, mem_eval_of_reaches hb (Config.step_of_halted hhalt),
        Or.inl ⟨rfl, hhalt⟩, hsame⟩
    | cons st rest =>
      obtain ⟨b, b', hb, hst, hrest⟩ := hfollows.exists_holds u
      rcases st.advances hst hrest hsame hfits hready with
        ⟨next, -, -, hnext, -⟩ | ⟨-, c, hc, hstuck, hsame'⟩
      · exact absurd (hnext.symm.trans hstop) (by simp)
      · exact ⟨c, mem_eval_of_reaches (hb.trans hc) hstuck.1, Or.inr ⟨by simp, hstuck⟩,
          hsame.trans hsame'⟩

end Installation

/-! ### Programs -/

/-- The declared variables that have values have values of their types. The store may have anything
for other names. -/
def World.Suits (p : Program) (w : World) : Prop :=
  ∀ ⦃y v ty⦄, w.store y = some v → p.types y = some ty → v.ty = ty

/-- A run of the program and a run of the executable have ended in the same way: both have run to
the end or both stick, with the same output, the same input left and the same values of the declared
variables. -/
structure Program.EndsAs (p : Program) (N : Numerics) (x : Executable) (a : Source) (c : Config) :
    Prop where
  ended : a.rest = [] ∧ c.Halted x.instrs ∨ a.rest ≠ [] ∧ c.Stuck N x.instrs
  output : c.world.output = a.world.output
  input : c.world.input = a.world.input
  store : ∀ y, p.types y ≠ none → c.world.store y = a.world.store y

/-- An executable is an installation of its program. -/
theorem Program.exists_installation {p : Program} {o : Options} {x : Executable}
    (hclosed : p.Closed) (hbuild : p.build o = .ok x) (N : Numerics) :
    ∃ (I : Installation) (D : Scope), I.numerics = N ∧ I.lines = x.instrs ∧ D.find? = p.types ∧
      D ≤ I.scope ∧ I.Follows D p.body 0 := by
  unfold Program.build at hbuild
  cases hf : p.lower with
  | error e => simp [hf, bind, Except.bind] at hbuild
  | ok f =>
    rw [hf] at hbuild
    have hlink : f.link o.signature = .ok x := hbuild
    obtain ⟨t, ht⟩ := Program.lower_ok hf
    obtain ⟨scope, hscope, hbody⟩ := Program.lowerItems_ok ht
    have htyped : Typed t.scope f.items := Stmt.lowerAll_typed_of (fun st _ => st.typesWell) hbody
    have htypes : scope.find? = p.types := funext (Program.find?_of_declareAll hscope)
    refine ⟨⟨N, x.instrs, fun l => l.addressIn? f.items, t.scope,
      Fragment.wellTyped_of_link hlink htyped⟩, scope, rfl, rfl, htypes,
      NameSupply.scope_mono (Stmt.adds_lowerAll _ hbody), ?_⟩
    rw [← List.append_nil p.body]
    refine .of_lowerAll hbody (Fragment.placed_of_link hlink) le_rfl ?_ (.done ?_)
    · rw [htypes]
      exact hclosed
    · rw [zero_add]
      exact Fragment.halt_of_link hlink

/-- **Preservation of meaning.** Run a program that mentions declared variables only, and the
executable built from it, in a store where declared variables have values of their types or none. If
one of the runs ends then so does the other, in the same way. Whether or not they end, their output
is the same at all times. The selector of a switch without cases is not read: unless all declared
variables have values, the program must not come to such a switch with a selector that is a variable
without one. -/
theorem build_preserves_meaning {p : Program} {o : Options} {x : Executable} (hclosed : p.Closed)
    (hbuild : p.build o = .ok x) (N : Numerics) {w : World} (hw : w.Suits p)
    (hready : (∀ y, p.types y ≠ none → w.store y ≠ none) ∨
      ∀ a, Reaches (Source.step N p.types) ⟨p.body, w⟩ a → a.overlooked? p.types = none) :
    (∀ a ∈ eval (Source.step N p.types) ⟨p.body, w⟩,
      ∃ c ∈ eval (Config.step N x.instrs) ⟨0, w⟩, p.EndsAs N x a c) ∧
    (∀ c ∈ eval (Config.step N x.instrs) ⟨0, w⟩,
      ∃ a ∈ eval (Source.step N p.types) ⟨p.body, w⟩, p.EndsAs N x a c) ∧
    ∀ out, (∃ a, Reaches (Source.step N p.types) ⟨p.body, w⟩ a ∧ a.world.output = out) ↔
      ∃ c, Reaches (Config.step N x.instrs) ⟨0, w⟩ c ∧ c.world.output = out := by
  obtain ⟨I, D, rfl, hlines, htypes, hle, hfollows⟩ :=
    Program.exists_installation hclosed hbuild N
  have hsim := Installation.simulation hle
  have hfits : w.Fits D := fun y v ty hy hty => hw hy (htypes ▸ hty)
  have hstart : I.Matches D ⟨p.body, w⟩ ⟨0, w⟩ :=
    ⟨hfollows, World.SameOn.refl D w, hfits, by rwa [Source.Ready, htypes]⟩
  have hends : ∀ {a c}, I.Ends D a c → p.EndsAs I.numerics x a c := by
    rintro a c ⟨hended, hsame⟩
    exact ⟨hlines ▸ hended, hsame.output, hsame.input, fun y hy => hsame.store (htypes ▸ hy)⟩
  have hstep : I.step = Config.step I.numerics x.instrs := by rw [Installation.step, hlines]
  rw [htypes, hstep] at hsim
  refine ⟨fun a ha => ?_, fun c hc => ?_, fun out => ?_⟩
  · obtain ⟨c, hc, hac⟩ := hsim.mem_eval hstart ha
    exact ⟨c, hc, hends hac⟩
  · obtain ⟨a, ha, hac⟩ := hsim.mem_eval_rev hstart hc
    exact ⟨a, ha, hends hac⟩
  · exact hsim.output_iff (Source.appends _ _) (Config.appends _ _)
      (fun _ _ h => h.same.output.symm) (fun _ _ h => h.same.output.symm) hstart out

/-- A switch without cases, whose selector has a value when the program comes to it. -/
def Program.caseless : Program where
  declarations := [⟨["n"], .int⟩]
  body := [
    .assign "n" (.lit (.int 3)),
    .switch (.var "n") []
      [.ite (.rel .le (.var "n") (.lit (.int 5))) (.output (.var "n")) (.block [])]]

/-- At first the only declared variable has no value, and a name that a temporary takes has one of
the other type. -/
theorem build_preserves_meaning_caseless :
    ∃ x c, Program.caseless.build = .ok x ∧
      c ∈ eval (Config.step .words x.instrs)
        ⟨0, ⟨Function.update (fun _ => none) "_t0" (some (.float ⟨7⟩)), [], []⟩⟩ ∧
      c.Halted x.instrs ∧ c.world.output = [.int 3] := by
  obtain ⟨x, hx⟩ := exists_ok_of_isOk (r := Program.caseless.build) (by decide +kernel)
  have hsuits : World.Suits Program.caseless
      ⟨Function.update (fun _ => none) "_t0" (some (.float ⟨7⟩)), [], []⟩ := by
    intro y v ty hy hty
    by_cases hname : y = "_t0"
    · subst hname
      cases hty
    · simp [Function.update_of_ne hname] at hy
  have hnever : ∀ a, Reaches (Source.step .words Program.caseless.types)
      ⟨Program.caseless.body, ⟨Function.update (fun _ => none) "_t0" (some (.float ⟨7⟩)), [], []⟩⟩
      a → a.overlooked? Program.caseless.types = none :=
    forall_reaches_of_some rfl rfl (forall_reaches_of_some rfl rfl (forall_reaches_of_some rfl rfl
      (forall_reaches_of_some rfl rfl (forall_reaches_of_none rfl rfl))))
  obtain ⟨hends, -, -⟩ := build_preserves_meaning (by unfold Program.Closed; decide) hx .words
    hsuits (Or.inr hnever)
  obtain ⟨c, hc, hend⟩ := hends _
    (StateTransition.mem_eval.2 ⟨.head rfl (.head rfl (.head rfl (.head rfl .refl))), rfl⟩)
  refine ⟨x, c, hx, hc, ?_, hend.output⟩
  rcases hend.ended with ⟨-, hhalted⟩ | ⟨hne, -⟩
  · exact hhalted
  · exact absurd rfl hne

end QuadCode
