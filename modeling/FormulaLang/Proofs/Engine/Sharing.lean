import FormulaLang.Proofs.Bytecode.Relocation
import FormulaLang.Proofs.Engine.Bound

/-!
# Numbers shared with the host

A host that shares a number with formulas has it in a cell, which a variable names and which
compiled formulas have in their code. Whatever is evaluated, compiled, run or written afterwards, all
of them go on to use this one cell.

* `KeepsAnchor`: evaluation and runs leave the variable where it is, and blocks that hide it are gone
  behind them.
* `Compiled`, `Session`, `Use`: an engine with the programs compiled on it, and what a host does.
* `Session.Holds`, **`Session.Holds.apply`**: the invariant, and that every use keeps it.
* `Session.Coherent`, **`coherent_run`**: after every use the host, the variable and the programs
  share the cell.
-/

namespace FormulaLang

open Bytecode (BelongsTo Program globalCell)
open Engine (InBlock Scoped Writes)

/-! ## Evaluation -/

/-- The level is the same, and a name that stands for a cell of the host still does. -/
structure KeepsAnchor (held : List Nat) (name : String) (cell : Nat) (st st' : Engine) : Prop where
  level : st'.env.level = st.env.level
  anchored : ∀ base ≤ st.env.level, st.env.Anchored held name cell base →
    st'.env.Anchored held name cell base

section Evaluation

variable {held : List Nat} {name : String} {cell : Nat} {st st' : Engine}

/-- What a block binds is further in. -/
theorem Engine.InBlock.keepsAnchor
    (h : InBlock (KeepsAnchor held name cell) (st.onEnv .enter) st') :
    st'.env.level = st.env.level + 1 ∧ ∀ base ≤ st.env.level,
      st.env.Anchored held name cell base → st'.env.Anchored held name cell base := by
  induction h with
  | refl => exact ⟨rfl, fun _ _ ha => ha.enter⟩
  | move _ hr ih =>
    exact ⟨hr.level.trans ih.1, fun base hb ha =>
      hr.anchored base (ih.1 ▸ Nat.le_succ_of_le hb) (ih.2 base hb ha)⟩
  | bind other v _ ih =>
    exact ⟨(Environment.level_addVariable _ other v).trans ih.1, fun base hb ha =>
      (ih.2 base hb ha).addVariable (.inr (ih.1 ▸ Nat.lt_succ_of_le hb)) v⟩

theorem Environment.level_leave (env : Environment) : env.leave.level = env.level - 1 := by
  unfold leave
  split
  · next h => rw [h]
  · next h => rw [h]; rfl

instance (held : List Nat) (name : String) (cell : Nat) : Scoped (KeepsAnchor held name cell) where
  refl _ := ⟨rfl, fun _ _ h => h⟩
  trans h h' := ⟨h'.level.trans h.level, fun base hb ha =>
    h'.anchored base (h.level ▸ hb) (h.anchored base hb ha)⟩
  note _ _ := ⟨rfl, fun _ _ h => h⟩
  assign st other v := by
    rcases assign_cases st other v with ⟨ha, _⟩ | ⟨f, ha⟩
    · rw [ha]
      exact ⟨Environment.level_setVariable, fun _ _ h => h.setVariable other v⟩
    · rw [ha]
      exact ⟨Environment.level_setVariable, fun _ _ h => h.setVariable other v⟩
  addFunction _ other f := ⟨rfl, fun _ _ h => h.addFunction other f⟩
  block {st st'} h := by
    have hlevel : (st'.onEnv .leave).env.level = st'.env.level - 1 := Environment.level_leave _
    rw [h.keepsAnchor.1] at hlevel
    exact ⟨hlevel, fun base hb ha => (h.keepsAnchor.2 base hb ha).leave⟩

instance (held : List Nat) (name : String) (cell : Nat) : Writes (KeepsAnchor held name cell) where
  setNumber _ _ _ := ⟨rfl, fun _ _ h => h.of_store (by simp [Store.setNumber])⟩

end Evaluation

/-! ## Sessions -/

/-- A program, with the tree and the environment that it was compiled from. -/
structure Compiled where
  env : Environment
  tree : Expr
  program : Program
  compiled : Bytecode.compile env tree = .ok program

/-- An engine, with the cells of its host and the programs compiled on it, both the latest first. -/
structure Session where
  engine : Engine
  cells : List HostCell
  programs : List Compiled

/-- What a host does with an engine. -/
inductive Use where
  | formula (source : String)
  | evaluate (e : Expr)
  | call (name : String) (args : List Value)
  | read (source : String)
  | compile (e : Expr)
  | run (p : Program)
  | writeNumber (cell : Nat) (x : Float)
  | writeBool (cell : Nat) (b : Bool)
  | writeValue (cell : Nat) (v : Value)
  | assign (name : String) (v : Value)
  | bind (name : String) (v : Value)
  | newCell (v : Value) (boxed : Bool)
  | share (name : String) (cell : HostCell)
  | define (name : String) (f : Function)
  | enter
  | leave
  | note (e : Located)
  | forget
  | clear

/-- The use neither binds a name anew nor drops all bindings. -/
def Use.Keeps (name : String) : Use → Prop
  | bind other _ | share other _ => other ≠ name
  | clear => False
  | _ => True

namespace Session

variable {s : Session} {cells : List HostCell} {name : String} {cell : Nat} {st st' : Engine}

/-- A change of the environment only. -/
def onEnv (s : Session) (f : Environment → Environment) : Session :=
  { s with engine := s.engine.onEnv f }

def apply (s : Session) : Use → Session
  | .formula source => { s with engine := (Engine.formula source s.engine).2 }
  | .evaluate e => { s with engine := (Engine.evaluate e s.engine).2 }
  | .call name args => { s with engine := (Engine.call name args s.engine).2 }
  | .read source => { s with engine := (Engine.read source s.engine).2 }
  | .compile e =>
    let engine := (Engine.compile e s.engine).2
    match h : Bytecode.compile s.engine.env e with
    | .ok p => { s with engine, programs := ⟨s.engine.env, e, p, h⟩ :: s.programs }
    | .error _ => { s with engine }
  | .run p => { s with engine := (Engine.runProgram p s.engine).2 }
  | .writeNumber cell x => s.onEnv fun env => { env with store := env.store.setNumber cell x }
  | .writeBool cell b => s.onEnv fun env => { env with store := env.store.setBool cell b }
  | .writeValue cell v => s.onEnv fun env => { env with store := env.store.setValue cell v }
  | .assign name v => s.onEnv fun env => (env.setVariable name v).1
  | .bind name v => s.onEnv (·.addVariable name v)
  | .newCell v boxed =>
    { s.onEnv fun env => (env.newHostCell v boxed).2 with
      cells := (s.engine.env.newHostCell v boxed).1 :: s.cells }
  | .share name cell => if cell ∈ s.cells then s.onEnv (·.addHost name cell) else s
  | .define name f => s.onEnv (·.addFunction name f)
  | .enter => s.onEnv .enter
  | .leave => s.onEnv .leave
  | .note e => { s with engine := s.engine.note e }
  | .forget => { s with engine := { s.engine with log := #[] } }
  | .clear => { s with engine := s.engine.clear }

def run (s : Session) (uses : List Use) : Session := uses.foldl apply s

/-! ## The invariant -/

/-- A variable is the one of the outermost level that stands for a cell of the host, now and
wherever a program was compiled. -/
structure Holds (s : Session) (name : String) (cell : Nat) : Prop where
  now : s.engine.env.Anchored (HostCell.numberCells s.cells) name cell s.engine.env.level
  before : ∀ c ∈ s.programs, c.env.Hosts name cell ∧ ∃ held, c.env.Sound held

namespace Holds

theorem hosts (h : s.Holds name cell) : s.engine.env.Hosts name cell := h.now.sound.hosts_iff.2 h.now

/-- What keeps the variable leads to an engine where it holds. -/
theorem step (h : s.Holds name cell)
    (hk : KeepsAnchor (HostCell.numberCells s.cells) name cell s.engine st) :
    { s with engine := st }.Holds name cell :=
  ⟨hk.level ▸ hk.anchored _ (Nat.le_refl _) h.now, h.before⟩

theorem onEnv (h : s.Holds name cell) {f : Environment → Environment}
    (hl : (f s.engine.env).level = s.engine.env.level)
    (hf : (f s.engine.env).Anchored (HostCell.numberCells s.cells) name cell s.engine.env.level) :
    (s.onEnv f).Holds name cell :=
  ⟨by rw [Session.onEnv, Engine.onEnv, hl]; exact hf, h.before⟩

/-- **Every use that neither binds the name anew nor drops all bindings keeps the invariant.** -/
theorem apply (h : s.Holds name cell) {u : Use} (hu : u.Keeps name) :
    (s.apply u).Holds name cell := by
  cases u with
  | formula source => exact h.step (moves_formula source s.engine)
  | evaluate e => exact h.step (moves_evaluate e s.engine)
  | call other args => exact h.step (moves_call other args s.engine)
  | read source => exact h.step (moves_read source s.engine)
  | compile e =>
    have hcompile := h.step (moves_compile e s.engine)
    rw [Session.apply]
    split
    · refine ⟨hcompile.now, fun c hc => ?_⟩
      rcases List.mem_cons.1 hc with rfl | hc
      · exact ⟨h.hosts, _, h.now.sound⟩
      · exact h.before c hc
    · exact hcompile
  | run p => exact h.step (moves_runProgram p s.engine)
  | writeNumber c x => exact h.onEnv rfl (h.now.of_store (by simp [Store.setNumber]))
  | writeBool c b => exact h.onEnv rfl (h.now.of_store rfl)
  | writeValue c v => exact h.onEnv rfl (h.now.of_store rfl)
  | assign other v => exact h.onEnv Environment.level_setVariable (h.now.setVariable other v)
  | bind other v =>
    exact h.onEnv (Environment.level_addVariable _ other v) (h.now.addVariable (.inl hu) v)
  | newCell v boxed =>
    have hl : (s.engine.env.newHostCell v boxed).2.level = s.engine.env.level := by
      unfold Environment.newHostCell
      split <;> rfl
    refine ⟨?_, h.before⟩
    have hnow := h.now.newHostCell v boxed
    rw [← hl] at hnow
    exact hnow
  | share other c =>
    by_cases hc : c ∈ s.cells
    · rw [Session.apply, if_pos hc]
      refine h.onEnv (f := (·.addHost other c)) rfl (h.now.addHost hu fun k hk => ?_)
      subst hk
      exact List.mem_filterMap.2 ⟨_, hc, rfl⟩
    · rw [Session.apply, if_neg hc]
      exact h
  | define other f => exact h.onEnv rfl (h.now.addFunction other f)
  | enter =>
    exact ⟨h.now.sound.enter.hosts_iff.1 h.hosts, h.before⟩
  | leave =>
    have hlevel : s.engine.env.leave.level ≤ s.engine.env.level := by
      rw [Environment.level_leave]
      exact Nat.sub_le _ _
    exact ⟨⟨h.now.leave.sound, h.now.leave.anchor.mono hlevel⟩, h.before⟩
  | note e => exact ⟨h.now, h.before⟩
  | forget => exact ⟨h.now, h.before⟩
  | clear => exact hu.elim

theorem run (h : s.Holds name cell) {uses : List Use} (hu : ∀ u ∈ uses, u.Keeps name) :
    (s.run uses).Holds name cell := by
  induction uses generalizing s with
  | nil => exact h
  | cons u uses ih =>
    exact ih (h.apply (hu u List.mem_cons_self)) fun v hv => hu v (List.mem_cons_of_mem u hv)

end Holds

/-! ## Coherence -/

/-- The host has a number in a cell, the variable has the number in this cell, and programs found the
variable in this cell when they were compiled and have it in every instruction of the variable. -/
structure Coherent (s : Session) (name : String) (cell : Nat) : Prop where
  made : cell < s.engine.env.store.numbers.size
  visible : s.engine.env.value? name = some (.number (s.engine.env.store.number cell))
  lookup : ∀ c ∈ s.programs, globalCell c.env name = .ok cell
  code : ∀ c ∈ s.programs, ∀ i, BelongsTo c.env c.tree c.program name i →
    c.program.code[i]? = some (.readCell cell) ∨ c.program.code[i]? = some (.writeCell cell)

theorem Holds.coherent (h : s.Holds name cell) : s.Coherent name cell where
  made := by
    obtain ⟨i, -, hi, -⟩ := h.now.anchor
    exact h.now.sound.cells.held_lt cell (h.now.sound.cells.host i cell hi)
  visible := h.hosts.value?
  lookup c hc := Bytecode.globalCell_of_hosts (h.before c hc).1
  code c hc i hi := by
    obtain ⟨hosts, held, hs⟩ := h.before c hc
    exact hi.uses_cell hs hosts c.compiled

/-- Programs are only added. -/
theorem mem_programs_apply {c : Compiled} (hc : c ∈ s.programs) (u : Use) :
    c ∈ (s.apply u).programs := by
  cases u with
  | compile e =>
    rw [apply]
    split
    · exact List.mem_cons_of_mem _ hc
    · exact hc
  | share other k =>
    rw [apply]
    split <;> exact hc
  | _ => exact hc

theorem mem_programs_run {c : Compiled} (hc : c ∈ s.programs) (uses : List Use) :
    c ∈ (s.run uses).programs := by
  induction uses generalizing s with
  | nil => exact hc
  | cons u uses ih => exact ih (mem_programs_apply hc u)

/-- A program that was compiled from the name goes on to have an instruction of it. -/
theorem exists_belongsTo {held : List Nat} (hs : s.engine.env.Sound held)
    (hosts : s.engine.env.Hosts name cell) (uses : List Use) :
    ∃ c ∈ (s.run (.compile (.var name) :: uses)).programs,
      BelongsTo c.env c.tree c.program name 0 := by
  have hcompile := Bytecode.compile_var (Bytecode.globalCell_of_hosts hosts)
  refine ⟨⟨_, _, _, hcompile⟩, ?_, Bytecode.belongsTo_var hs hosts⟩
  refine mem_programs_run (s := s.apply (.compile (.var name))) ?_ uses
  rw [apply]
  split
  · next p hp =>
    obtain rfl := Except.ok.inj (hp.symm.trans hcompile)
    exact List.mem_cons_self
  · next f hf => cases hf.symm.trans hcompile

end Session

/-- **Host, variable and programs share one cell** after any uses of an engine in which a number
variable of the host is at the outermost level, as long as it is not bound anew and the bindings are
not dropped: whatever formulas assign to the name, hide it by, or fail at. The uses up to any step of
a session are such uses, so this holds after every step. -/
theorem coherent_run {cells : List HostCell} {st : Engine} {name : String} {cell : Nat}
    (h : Engine.Reachable cells st) (hosts : st.env.Hosts name cell) {uses : List Use}
    (hu : ∀ u ∈ uses, u.Keeps name) : (Session.run ⟨st, cells, []⟩ uses).Coherent name cell := by
  have hstart : Session.Holds ⟨st, cells, []⟩ name cell :=
    ⟨h.sound.hosts_iff.1 hosts, fun c hc => (by cases hc)⟩
  exact (hstart.run hu).coherent

/-- A formula of the name is compiled, then the name is assigned a text, hidden by a loop, written by
a program and by the host. -/
theorem coherent_writtenNumber :
    let st := ((Engine.create { catalog := false }).onEnv fun env =>
      (env.newHostCell (.number 2.0) false).2).onEnv (·.addHost "h" (.number 0))
    let uses : List Use := [.evaluate (.assign "h" (.constant (.string "text"))),
      .evaluate (.loop .sum "h" (.range (.constant (.number 1.0)) none (.constant (.number 3.0)))
        (.assign "h" (.var "k")) none),
      .run ⟨#[.constant 5.0, .dup, .writeCell 0], 0⟩, .writeNumber 0 7.0]
    Engine.Reachable [.number 0] st ∧ st.env.Hosts "h" 0 ∧
    (∀ u ∈ Use.compile (.var "h") :: uses, u.Keeps "h") ∧
    (Session.run ⟨st, [.number 0], []⟩ (.compile (.var "h") :: uses)).Coherent "h" 0 ∧
    ∃ c ∈ (Session.run ⟨st, [.number 0], []⟩ (.compile (.var "h") :: uses)).programs,
      BelongsTo c.env c.tree c.program "h" 0 := by
  intro st uses
  have h : Engine.Reachable [.number 0] st :=
    ((Engine.Reachable.create { catalog := false }).newCell (.number 2.0) false).addHost "h"
      List.mem_cons_self
  have hosts : st.env.Hosts "h" 0 := by
    refine ⟨⟨"h", 0, .host (.number 0), none⟩, ?_, rfl, rfl⟩
    show ScopedTable.entry? (ScopedTable.empty.add "h" (Variable.host (.number 0)) 0) "h" = _
    simp [ScopedTable.add, ScopedTable.entry?, ScopedTable.push, ScopedTable.empty]
  have hu : ∀ u ∈ Use.compile (.var "h") :: uses, u.Keeps "h" := by simp [uses, Use.Keeps]
  exact ⟨h, hosts, hu, coherent_run h hosts hu, Session.exists_belongsTo h.sound hosts uses⟩

end FormulaLang
