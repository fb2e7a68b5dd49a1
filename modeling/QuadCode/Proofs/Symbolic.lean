import QuadCode.Proofs.Linking
import QuadCode.Proofs.Simulation

/-!
# Symbolic code on the machine

Code can be run before it is linked. A marker does nothing, a jump goes to the
marker of its label, and a run ends at a halt or behind the last entry.

* `Cursor.step` is a step of symbolic code, over the positions of its entries;
* `Executes` is a run together with the instructions that it executes and the
  worlds in which it does so. Markers leave no trace;
* `Cursor.config` is where linked code stands when symbolic code stands at a
  position: on the line that counts the instructions before it.

The main statement is `linked_code_runs_in_lockstep`.
-/

namespace QuadCode

open StateTransition

/-- The position of the marker of a label, if there is one. -/
def Label.positionIn? (l : Label) (items : List Item) : Option ℕ :=
  items.findIdx? fun item => decide (item.label? = some l)

/-- A state of a run of symbolic code: the position of the entry that is next, and the world. -/
structure Cursor where
  position : ℕ
  world : World

/-- Where symbolic code stands after an instruction. -/
def Control.cursor (items : List Item) (position : ℕ) (w : World) : Control Label → Option Cursor
  | next => some ⟨position + 1, w⟩
  | goto l => (l.positionIn? items).map (⟨·, w⟩)
  | stop => none

namespace Cursor

/-- A step of symbolic code. -/
def step (N : Numerics) (items : List Item) (c : Cursor) : Option Cursor :=
  match items[c.position]? with
  | none => none
  | some (.mark _) => some ⟨c.position + 1, c.world⟩
  | some (.instr i) => (i.exec N c.world).bind fun r => r.1.cursor items c.position r.2

/-- The run has come to a halt or behind the last entry. -/
def Halted (items : List Item) (c : Cursor) : Prop :=
  items[c.position]? = none ∨ items[c.position]? = some (.instr .halt)

/-- The run has not ended and has no step to make. -/
def Stuck (N : Numerics) (items : List Item) (c : Cursor) : Prop :=
  c.step N items = none ∧ ¬ c.Halted items

/-- The instruction that is next and the world, unless a marker is next. -/
def seen (items : List Item) (c : Cursor) : Option (Instr Label × World) :=
  (items[c.position]?.bind Item.instr?).map (·, c.world)

/-- Where linked code stands. -/
def config (items : List Item) (c : Cursor) : Config :=
  ⟨lineCount (items.take c.position), c.world⟩

end Cursor

/-- The instruction that is next and the world. -/
def Config.seen (code : List (Instr ℕ)) (c : Config) : Option (Instr ℕ × World) :=
  code[c.line]?.map (·, c.world)

/-- A run from one state to another, with the instructions that it executes and the worlds in which
it executes them. -/
inductive Executes {σ ι : Type} (step : σ → Option σ) (seen : σ → Option (ι × World)) :
    σ → List (ι × World) → σ → Prop where
  | refl (c : σ) : Executes step seen c [] c
  | head {c d e : σ} {trace : List (ι × World)} : step c = some d → Executes step seen d trace e →
      Executes step seen c ((seen c).toList ++ trace) e

theorem Executes.trans {σ ι : Type} {step : σ → Option σ} {seen : σ → Option (ι × World)}
    {c d e : σ} {trace trace' : List (ι × World)} (h : Executes step seen c trace d)
    (h' : Executes step seen d trace' e) : Executes step seen c (trace ++ trace') e := by
  induction h with
  | refl => exact h'
  | head hstep _ ih =>
    rw [List.append_assoc]
    exact .head hstep (ih h')

/-! ### Positions and lines -/

section Positions

variable {items : List Item} {k : ℕ}

theorem lineCount_take_of_mark {l : Label} (h : items[k]? = some (.mark l)) :
    lineCount (items.take (k + 1)) = lineCount (items.take k) := by
  rw [List.take_add_one, h, lineCount_append]
  rfl

theorem lineCount_take_of_instr {i : Instr Label} (h : items[k]? = some (.instr i)) :
    lineCount (items.take (k + 1)) = lineCount (items.take k) + 1 := by
  rw [List.take_add_one, h, lineCount_append]
  rfl

/-- The line of a label counts the instructions before its marker. -/
theorem Label.addressIn?_eq_map_positionIn? (l : Label) (items : List Item) :
    l.addressIn? items = (l.positionIn? items).map fun p => lineCount (items.take p) := by
  induction items with
  | nil => rfl
  | cons item items ih =>
    have hcons : l.positionIn? (item :: items) =
        if item.label? = some l then some 0 else (l.positionIn? items).map (· + 1) := by
      simp [positionIn?, List.findIdx?_cons]
    cases item with
    | mark m =>
      by_cases hm : m = l
      · subst hm
        simp [hcons, addressIn?, Item.label?]
      · simp [hcons, addressIn?, Item.label?, hm, ih, Function.comp_def]
    | instr i => simp [hcons, addressIn?, Item.label?, ih, Function.comp_def]

theorem instrsIn_getElem? {i : Instr Label} (h : items[k]? = some (.instr i)) :
    (instrsIn items)[lineCount (items.take k)]? = some i := by
  obtain ⟨hk, he⟩ := List.getElem?_eq_some_iff.1 h
  have hsplit : items = items.take k ++ .instr i :: items.drop (k + 1) := by
    rw [← he, List.getElem_cons_drop, List.take_append_drop]
  rw [hsplit, instrsIn_append, List.take_left' (by simp; omega)]
  simp [lineCount]

end Positions

/-! ### Instructions with resolved targets -/

/-- Control goes to what the target is resolved to. -/
def Control.Resolves {α β : Type} (f : α → Option β) : Control α → Control β → Prop
  | next, next => True
  | goto l, goto n => f l = some n
  | stop, stop => True
  | _, _ => False

/-- An instruction with a resolved target does the same to the world and goes to the resolved
target. -/
theorem Instr.exec_of_mapTarget {α β : Type} {N : Numerics} {w : World} {f : α → Option β}
    {i : Instr α} {j : Instr β} (h : i.mapTarget f = some j) :
    i.exec N w = none ∧ j.exec N w = none ∨
      ∃ control control' u, i.exec N w = some (control, u) ∧ j.exec N w = some (control', u) ∧
        control.Resolves f control' := by
  cases i with
  | jump l =>
    obtain ⟨n, hn, hj⟩ := Option.bind_eq_some_iff.1 h
    obtain rfl := Option.some.inj hj
    exact Or.inr ⟨_, _, w, rfl, rfl, hn⟩
  | jumpIfZero l cond =>
    obtain ⟨n, hn, hj⟩ := Option.bind_eq_some_iff.1 h
    obtain rfl := Option.some.inj hj
    cases hv : w.fetch N .int cond with
    | none => exact Or.inl ⟨by simp [exec, hv], by simp [exec, hv]⟩
    | some v =>
      refine Or.inr ⟨_, _, w, by simp only [exec, hv]; rfl, by simp only [exec, hv]; rfl, ?_⟩
      split_ifs
      · exact hn
      · trivial
  | halt =>
    obtain rfl := Option.some.inj h
    exact Or.inr ⟨_, _, w, rfl, rfl, trivial⟩
  | _ =>
    obtain rfl := Option.some.inj h
    simp only [exec, Option.bind_eq_bind, Option.pure_def]
    grind [Control.Resolves, Option.bind_eq_some_iff, Option.bind_eq_none_iff]

/-- A marker is passed without a trace, and linked code stays where it is. -/
theorem Cursor.step_of_mark {items : List Item} {c : Cursor} {l : Label}
    (hl : items[c.position]? = some (.mark l)) (N : Numerics) :
    ∃ d, c.step N items = some d ∧ c.seen items = none ∧ d.config items = c.config items ∧
      items.length - d.position < items.length - c.position := by
  have hlt : c.position < items.length := (List.getElem?_eq_some_iff.1 hl).1
  refine ⟨⟨c.position + 1, c.world⟩, by simp [step, hl], by simp [seen, hl, Item.instr?], ?_, ?_⟩
  · simp only [config, lineCount_take_of_mark hl]
  · simp only
    omega

/-! ### Symbolic and linked code -/

namespace Fragment

/-- The runs execute the same instructions, up to the resolution of targets, in the same worlds. -/
def SameTrace (f : Fragment) : List (Instr Label × World) → List (Instr ℕ × World) → Prop :=
  List.Forall₂ fun a b => a.1.mapTarget (fun l => l.addressIn? f.items) = some b.1 ∧ b.2 = a.2

variable {f : Fragment} {signature : String} {x : Executable} {N : Numerics} {c d : Cursor}

theorem line_of_link (h : f.link signature = .ok x) {i : Instr Label}
    (hi : f.items[c.position]? = some (.instr i)) :
    ∃ j, i.mapTarget (fun l => l.addressIn? f.items) = some j ∧
      x.instrs[(c.config f.items).line]? = some j := by
  have hline := instrsIn_getElem? hi
  refine getElem?_of_link h ?_
  exact (List.getElem?_append_left (List.getElem?_eq_some_iff.1 hline).1).trans hline

/-- Behind the last entry linked code halts. -/
theorem halted_of_link (h : f.link signature = .ok x) (hc : f.items[c.position]? = none) :
    (c.config f.items).Halted x.instrs := by
  have hline := halt_of_link h
  rwa [← List.take_of_length_le (List.getElem?_eq_none_iff.1 hc)] at hline

/-- A step of symbolic code passes a marker, or it executes an instruction, and so does linked
code. -/
theorem step_of_link (h : f.link signature = .ok x) (hstep : c.step N f.items = some d) :
    (∃ l, f.items[c.position]? = some (.mark l)) ∨
      (f.SameTrace (c.seen f.items).toList ((c.config f.items).seen x.instrs).toList ∧
        (c.config f.items).step N x.instrs = some (d.config f.items)) := by
  unfold Cursor.step at hstep
  split at hstep
  · cases hstep
  · exact Or.inl ⟨_, by assumption⟩
  · rename_i i hi
    obtain ⟨j, hj, hline⟩ := line_of_link h hi
    refine Or.inr ⟨?_, ?_⟩
    · simp only [Cursor.seen, Config.seen, hi, hline, Option.bind_some, Item.instr?,
        Option.map_some, Option.toList_some]
      exact .cons ⟨hj, rfl⟩ .nil
    · rcases Instr.exec_of_mapTarget (N := N) (w := c.world) hj with
        ⟨hnone, -⟩ | ⟨control, control', u, hexec, hexecj, hres⟩
      · simp [hnone] at hstep
      rw [hexec, Option.bind_some] at hstep
      refine Config.step_eq_some_iff.2 ⟨j, hline, ?_⟩
      cases control <;> cases control' <;> simp only [Control.Resolves] at hres
      case next.next =>
        obtain rfl := Option.some.inj hstep
        exact Or.inl ⟨hexecj, lineCount_take_of_instr hi⟩
      case goto.goto l n =>
        obtain ⟨p, hp, rfl⟩ := Option.map_eq_some_iff.1 hstep
        rw [Label.addressIn?_eq_map_positionIn?, hp] at hres
        obtain rfl := Option.some.inj hres
        exact Or.inr hexecj
      case stop.stop => cases hstep

/-- Where symbolic code has no step to make, neither has linked code, and the two halt or stick
alike. -/
theorem stop_of_link (h : f.link signature = .ok x) (hstep : c.step N f.items = none) :
    (c.config f.items).step N x.instrs = none ∧
      (c.Halted f.items ↔ (c.config f.items).Halted x.instrs) := by
  unfold Cursor.step at hstep
  split at hstep
  · rename_i hnone
    have hhalt := halted_of_link h hnone
    exact ⟨Config.step_of_halted hhalt, iff_of_true (Or.inl hnone) hhalt⟩
  · cases hstep
  · rename_i i hi
    obtain ⟨j, hj, hline⟩ := line_of_link h hi
    rcases Instr.exec_of_mapTarget (N := N) (w := c.world) hj with
      ⟨hnone, hnonej⟩ | ⟨control, control', u, hexec, hexecj, hres⟩
    · obtain ⟨hstuck, hnot⟩ := Config.stuck_of_exec (c := c.config f.items) hline hnonej
      refine ⟨hstuck, iff_of_false ?_ hnot⟩
      rintro (he | he)
      · simp [hi] at he
      · rw [hi] at he
        cases he
        cases hnone
    · rw [hexec, Option.bind_some] at hstep
      cases control with
      | next => cases hstep
      | goto l =>
        -- the target is placed, since the code was linked
        cases control' with
        | goto n =>
          have haddress : l.addressIn? f.items = some n := hres
          rw [Label.addressIn?_eq_map_positionIn?, Option.map_eq_none_iff.1 hstep] at haddress
          cases haddress
        | next => exact hres.elim
        | stop => exact hres.elim
      | stop =>
        obtain ⟨hs, -⟩ | ⟨l, hl, -⟩ | ⟨-, rfl⟩ := Instr.control_of_exec hexec
        · cases hs
        · cases hl
        · obtain rfl := Option.some.inj hj
          exact ⟨Config.step_of_halted hline, iff_of_true (Or.inr hi) hline⟩

theorem simulation_of_link (h : f.link signature = .ok x) (N : Numerics) :
    Simulation (Cursor.step N f.items) (Config.step N x.instrs)
      (fun c d => d = c.config f.items)
      (fun c d => d.world = c.world ∧ (c.Halted f.items ↔ d.Halted x.instrs))
      (fun c => f.items.length - c.position) where
  step := by
    rintro c c' _ rfl hstep
    refine ⟨c'.config f.items, rfl, ?_⟩
    rcases step_of_link h hstep with ⟨l, hl⟩ | ⟨-, hstep'⟩
    · obtain ⟨d, hd, -, hconfig, hlt⟩ := Cursor.step_of_mark hl N
      obtain rfl := Option.some.inj (hd.symm.trans hstep)
      rw [hconfig]
      exact Or.inr ⟨Relation.ReflTransGen.refl, hlt⟩
    · exact Or.inl (Relation.TransGen.single hstep')
  stop := by
    rintro c _ rfl hstep
    obtain ⟨hnone, hhalted⟩ := stop_of_link h hstep
    exact ⟨_, StateTransition.mem_eval.2 ⟨Relation.ReflTransGen.refl, hnone⟩, rfl, hhalted⟩

theorem executes_of_link (h : f.link signature = .ok x) {trace : List (Instr Label × World)}
    (hrun : Executes (Cursor.step N f.items) (Cursor.seen f.items) c trace d) :
    ∃ trace', f.SameTrace trace trace' ∧
      Executes (Config.step N x.instrs) (Config.seen x.instrs) (c.config f.items) trace'
        (d.config f.items) := by
  induction hrun with
  | refl c => exact ⟨[], .nil, .refl _⟩
  | head hstep _ ih =>
    obtain ⟨trace', hsame, hrun'⟩ := ih
    rcases step_of_link h hstep with ⟨l, hl⟩ | ⟨hseen, hstep'⟩
    · obtain ⟨d, hd, hseen, hconfig, -⟩ := Cursor.step_of_mark hl N
      obtain rfl := Option.some.inj (hd.symm.trans hstep)
      rw [hseen, ← hconfig]
      exact ⟨trace', hsame, hrun'⟩
    · exact ⟨_, List.rel_append hseen hsame, .head hstep' hrun'⟩

end Fragment

/-- Symbolic code passes the markers in front of it. -/
theorem Cursor.exists_skip (N : Numerics) (items : List Item) (c : Cursor) :
    ∃ d, Executes (Cursor.step N items) (Cursor.seen items) c [] d ∧
      d.config items = c.config items ∧ ∀ l, items[d.position]? ≠ some (.mark l) := by
  induction hn : items.length - c.position using Nat.strong_induction_on generalizing c with
  | _ n ih =>
    subst hn
    by_cases hmark : ∃ l, items[c.position]? = some (.mark l)
    · obtain ⟨l, hl⟩ := hmark
      obtain ⟨c', hstep, hseen, hconfig, hlt⟩ := Cursor.step_of_mark hl N
      obtain ⟨d, hrun, hconfig', hd⟩ := ih _ hlt c' rfl
      have hhead : Executes (Cursor.step N items) (Cursor.seen items) c
          ((c.seen items).toList ++ []) d := .head hstep hrun
      rw [hseen] at hhead
      exact ⟨d, hhead, hconfig'.trans hconfig, hd⟩
    · exact ⟨c, .refl c, rfl, not_exists.1 hmark⟩

theorem Fragment.executes_of_link_rev {f : Fragment} {signature : String} {x : Executable}
    {N : Numerics} (h : f.link signature = .ok x) {trace' : List (Instr ℕ × World)} {a b : Config}
    (hrun : Executes (Config.step N x.instrs) (Config.seen x.instrs) a trace' b) {c : Cursor}
    (hc : c.config f.items = a) :
    ∃ trace d, f.SameTrace trace trace' ∧
      Executes (Cursor.step N f.items) (Cursor.seen f.items) c trace d ∧ d.config f.items = b := by
  induction hrun generalizing c with
  | refl a => exact ⟨[], c, .nil, .refl c, hc⟩
  | head hstep _ ih =>
    subst hc
    -- pass the markers, so that both are at the same instruction
    obtain ⟨c₁, hskip, hconfig, hmark⟩ := c.exists_skip N f.items
    rw [← hconfig] at hstep ⊢
    cases hstep₁ : c₁.step N f.items with
    | none => simp [(stop_of_link h hstep₁).1] at hstep
    | some c₂ =>
      rcases step_of_link h hstep₁ with ⟨l, hl⟩ | ⟨hseen, hstep₂⟩
      · exact absurd hl (hmark l)
      · obtain rfl := Option.some.inj (hstep₂.symm.trans hstep)
        obtain ⟨trace, d, hsame, hrun, hd⟩ := ih rfl
        exact ⟨_, d, List.rel_append hseen hsame, hskip.trans (.head hstep₁ hrun), hd⟩

/-- **Lockstep.** Symbolic code and the code linked from it execute the same instructions in the
same worlds, up to the resolution of targets, and markers take up no step of linked code. So the
runs of both halt, both stick or both go on for ever, and those that end do so in the same world. -/
theorem linked_code_runs_in_lockstep {f : Fragment} {signature : String} {x : Executable}
    (h : f.link signature = .ok x) (N : Numerics) (w : World) :
    (∀ trace c, Executes (Cursor.step N f.items) (Cursor.seen f.items) ⟨0, w⟩ trace c →
      ∃ trace', f.SameTrace trace trace' ∧
        Executes (Config.step N x.instrs) (Config.seen x.instrs) ⟨0, w⟩ trace'
          (c.config f.items)) ∧
    (∀ trace' d, Executes (Config.step N x.instrs) (Config.seen x.instrs) ⟨0, w⟩ trace' d →
      ∃ trace c, f.SameTrace trace trace' ∧
        Executes (Cursor.step N f.items) (Cursor.seen f.items) ⟨0, w⟩ trace c ∧
          c.config f.items = d) ∧
    ∀ u,
      ((∃ c ∈ eval (Cursor.step N f.items) ⟨0, w⟩, c.Halted f.items ∧ c.world = u) ↔
        ∃ d ∈ eval (Config.step N x.instrs) ⟨0, w⟩, d.Halted x.instrs ∧ d.world = u) ∧
      ((∃ c ∈ eval (Cursor.step N f.items) ⟨0, w⟩, c.Stuck N f.items ∧ c.world = u) ↔
        ∃ d ∈ eval (Config.step N x.instrs) ⟨0, w⟩, d.Stuck N x.instrs ∧ d.world = u) := by
  have hsim := Fragment.simulation_of_link h N
  have hstart : (⟨0, w⟩ : Config) = Cursor.config f.items ⟨0, w⟩ := rfl
  refine ⟨fun trace c hrun => Fragment.executes_of_link h hrun,
    fun trace' d hrun => Fragment.executes_of_link_rev h hrun rfl, fun u => ⟨⟨?_, ?_⟩, ⟨?_, ?_⟩⟩⟩
  · rintro ⟨c, hc, hhalted, rfl⟩
    obtain ⟨d, hd, hworld, hiff⟩ := hsim.mem_eval hstart hc
    exact ⟨d, hd, hiff.1 hhalted, hworld⟩
  · rintro ⟨d, hd, hhalted, rfl⟩
    obtain ⟨c, hc, hworld, hiff⟩ := hsim.mem_eval_rev hstart hd
    exact ⟨c, hc, hiff.2 hhalted, hworld.symm⟩
  · rintro ⟨c, hc, ⟨-, hnot⟩, rfl⟩
    obtain ⟨d, hd, hworld, hiff⟩ := hsim.mem_eval hstart hc
    exact ⟨d, hd, ⟨(StateTransition.mem_eval.1 hd).2, fun hh => hnot (hiff.2 hh)⟩, hworld⟩
  · rintro ⟨d, hd, ⟨-, hnot⟩, rfl⟩
    obtain ⟨c, hc, hworld, hiff⟩ := hsim.mem_eval_rev hstart hd
    exact ⟨c, hc, ⟨(StateTransition.mem_eval.1 hc).2, fun hh => hnot (hiff.1 hh)⟩, hworld.symm⟩

/-- A loop with two markers in front of it, a halt that is passed by and a marker behind all. -/
def Fragment.countdown : Fragment where
  items := [
    .mark ⟨0⟩,
    .mark ⟨1⟩,
    .instr (.jumpIfZero ⟨2⟩ (.var "n")),
    .instr (.print .int (.var "n")),
    .instr (.arith .sub .int "n" (.var "n") (.lit (.int 1))),
    .instr (.jump ⟨1⟩),
    .instr .halt,
    .mark ⟨2⟩]

theorem linked_code_runs_in_lockstep_countdown :
    ∃ x, Fragment.countdown.link "cpq 0.1.0" = .ok x ∧
      ∃ d ∈ eval (Config.step .words x.instrs)
          ⟨0, ⟨Function.update (fun _ => none) "n" (some (.int 1)), [], []⟩⟩,
        d.Halted x.instrs ∧ d.world.output = [.int 1] := by
  obtain ⟨x, hx⟩ := exists_ok_of_isOk (r := Fragment.countdown.link "cpq 0.1.0") (by decide +kernel)
  obtain ⟨-, -, hends⟩ := linked_code_runs_in_lockstep hx .words
    ⟨Function.update (fun _ => none) "n" (some (.int 1)), [], []⟩
  -- the markers, once round the loop, and out to the last marker
  have hrun : Reaches (Cursor.step .words Fragment.countdown.items)
      ⟨0, ⟨Function.update (fun _ => none) "n" (some (.int 1)), [], []⟩⟩
      ⟨8, ⟨Function.update (Function.update (fun _ => none) "n" (some (.int 1))) "n"
        (some (.int 0)), [], [.int 1]⟩⟩ :=
    .head rfl (.head rfl (.head rfl (.head rfl (.head rfl (.head rfl (.head rfl (.head rfl
      (.head rfl .refl))))))))
  obtain ⟨d, hd, hhalted, hworld⟩ := ((hends _).1).1
    ⟨_, StateTransition.mem_eval.2 ⟨hrun, rfl⟩, Or.inl rfl, rfl⟩
  exact ⟨x, hx, d, hd, hhalted, by rw [hworld]⟩

end QuadCode
