import FormulaLang.Proofs.Bytecode.Agreement
import FormulaLang.Proofs.Bytecode.Blockwise
import FormulaLang.Proofs.Bytecode.Simulation
import FormulaLang.Proofs.Engine.Blame
import FormulaLang.Proofs.Engine.Bound

/-!
# Names that code reads

In a blockwise formula, whatever name the compiler lets be read has a value when it is read: names
with slots and cells other than local ones are bound for good, and local names are read only where
they have been bound before in the same block or further out. So the first fault of an evaluation
never blames a name.

* `Stays`: what is bound stays bound, and functions are the same.
* `Shows`: the names that the code reads are bound, and functions are those of the slots.
* `Visible`: guarded computations, from slots to slots.
* `visible_loop`, `visible_inline`: loops and calls.
* **`Lowered.visible`**, **`log_eq_or_blames_of_blockwise`**: blockwise formulas.
-/

namespace FormulaLang.Bytecode

open Environment (Bound Grows)
open Eval (Moves)
open FormulaLang.Expr (also also_iff also_mono)
open Slots (Tight Widens)

variable {base env env' env'' : Environment} {held : List Nat} {locals : String → Bool}
  {inner : Bool} {known known' : String → Bool} {names names' : List String}
  {s s' s₁ s₂ : Slots} {name : String}

/-! ## What evaluation leaves as it is -/

/-- What is bound stays bound, and functions are the same. -/
structure Stays (held : List Nat) (env env' : Environment) : Prop where
  sound : env'.Sound held
  grows : env.Grows env'
  functions : env'.functions = env.functions

namespace Stays

theorem refl (h : env.Sound held) : Stays held env env := ⟨h, .refl env, rfl⟩

theorem trans (h : Stays held env env') (h' : Stays held env' env'') : Stays held env env'' :=
  ⟨h'.sound, h.grows.trans h'.grows, h'.functions.trans h.functions⟩

theorem addVariable (h : env.Sound held) (name : String) {v : Value} (hv : v.isInvalid = false) :
    Stays held env (env.addVariable name v) :=
  ⟨h.addVariable name v, Environment.grows_addVariable h name hv, env.functions_addVariable name v⟩

theorem addVariables (h : env.Sound held) {pairs : List (String × Value)}
    (hv : ∀ p ∈ pairs, p.2.isInvalid = false) : Stays held env (env.addVariables pairs) := by
  induction pairs generalizing env with
  | nil => exact .refl h
  | cons p pairs ih =>
    have hp : Stays held env (env.addVariable p.1 p.2) := .addVariable h p.1 (hv p (by simp))
    exact hp.trans (ih hp.sound fun q hq => hv q (List.mem_cons_of_mem _ hq))

/-- Behind a block. -/
theorem leave (h : Stays held env.enter env') (hs : env.Sound held) :
    Stays held env env'.leave := by
  refine ⟨h.sound.leave, h.grows.leave hs, ?_⟩
  have hlevel : env'.level = env.level + 1 := h.grows.level
  unfold Environment.leave
  rw [hlevel]
  exact (congrArg (·.dropLevel (env.level + 1)) h.functions).trans
    (ScopedTable.dropLevel_of_leveled hs.functionsLevel)

end Stays

theorem bound_addVariables (h : env.Sound held) {vs : List Value}
    (hlen : vs.length = names.length) (hvs : ∀ v ∈ vs, v.isInvalid = false) (hn : name ∈ names) :
    (env.addVariables (names.zip vs)).Bound name := by
  induction names generalizing env vs with
  | nil => cases hn
  | cons other names ih =>
    obtain _ | ⟨v, vs⟩ := vs
    · cases hlen
    have hvs' : ∀ w ∈ vs, w.isInvalid = false := fun w hw => hvs w (List.mem_cons_of_mem _ hw)
    rcases List.mem_cons.1 hn with rfl | hn
    · have hst : Stays held (env.addVariable name v)
          ((env.addVariable name v).addVariables (names.zip vs)) :=
        .addVariables (h.addVariable name v) fun p hp => hvs' _ (List.of_mem_zip hp).2
      exact hst.grows.here (h.bound_addVariable (hvs v (by simp)) (.inl rfl))
    · exact ih (h.addVariable other v) (Nat.succ.inj hlen) hvs' hn

/-! ## Names that are shown -/

variable (base held locals) in
/-- **The names that the code reads are bound**: those with slots other than local ones, those with
cells at the beginning, and known local ones. Functions are those of the slots, or else those at the
beginning. -/
structure Shows (known : String → Bool) (s : Slots) (env : Environment) : Prop where
  sound : env.Sound held
  functions : ∀ name,
    env.function? name = ((s.function? name).map Inline.function).or (base.function? name)
  named : ∀ name, locals name = false → s.Names name → env.Bound name
  cells : ∀ name cell, globalCell base name = .ok cell → env.Bound name
  locals : ∀ name, locals name → known name → env.Bound name

namespace Shows

theorem stays (h : Shows base held locals known s env) (hst : Stays held env env') :
    Shows base held locals known s env' where
  sound := hst.sound
  functions name := by rw [Environment.function?, hst.functions, ← h.functions]; rfl
  named name hl hn := hst.grows.here (h.named name hl hn)
  cells name cell hc := hst.grows.here (h.cells name cell hc)
  locals name hl hn := hst.grows.here (h.locals name hl hn)

theorem mono (h : Shows base held locals known s env) (hk : ∀ name, known' name → known name) :
    Shows base held locals known' s env :=
  { h with locals := fun name hl hn => h.locals name hl (hk name hn) }

/-- Fewer names have slots. -/
theorem of_names (h : Shows base held locals known s env)
    (hn : ∀ name, locals name = false → s'.Names name → s.Names name)
    (hf : s'.functions = s.functions) : Shows base held locals known s' env where
  sound := h.sound
  functions name := by rw [Slots.function?, hf, h.functions]; rfl
  named name hl hname := h.named name hl (hn name hl hname)
  cells := h.cells
  locals := h.locals

theorem widen (h : Shows base held locals known s env) (hw : s.Widens locals true s') :
    Shows base held locals known s' env :=
  h.of_names (fun _ hl => hw.names_of_inner hl) (hw.functions rfl)

theorem enter (h : Shows base held locals known s env) :
    Shows base held locals known s env.enter :=
  ⟨h.sound.enter, h.functions, h.named, h.cells, h.locals⟩

/-- A name that has a slot or a cell is bound, a local one where it is known. -/
theorem bound (h : Shows base held locals known s env) (hn : locals name → known name)
    (hr : s.Names name ∨ ∃ cell, globalCell base name = .ok cell) : env.Bound name := by
  cases hl : locals name with
  | true => exact h.locals name hl (hn hl)
  | false =>
    rcases hr with hr | ⟨cell, hc⟩
    · exact h.named name hl hr
    · exact h.cells name cell hc

/-- Names are bound to slots of their own, and to values. -/
theorem pushAll (h : Shows base held locals known s env) {vs : List Value}
    (hlen : vs.length = names.length) (hvs : ∀ v ∈ vs, v.isInvalid = false) :
    Shows base held locals (also known names) (s.pushAll names)
      (env.addVariables (names.zip vs)) := by
  have hst : Stays held env (env.addVariables (names.zip vs)) :=
    .addVariables h.sound fun p hp => hvs _ (List.of_mem_zip hp).2
  have hnew : ∀ name ∈ names, (env.addVariables (names.zip vs)).Bound name := fun name hn =>
    bound_addVariables h.sound hlen hvs hn
  have h' := h.stays hst
  refine ⟨h'.sound, h'.functions, fun name hl hn => ?_, h'.cells, fun name hl hn => ?_⟩
  · rcases Slots.names_pushAll.1 hn with hn | hn
    · exact hnew name hn
    · exact h'.named name hl hn
  · rcases also_iff.1 hn with hn | hn
    · exact h'.locals name hl hn
    · exact hnew name hn

/-- A name is written. -/
theorem assign (h : Shows base held locals known s env) {i : Instruction}
    (hw : Written base name s i s') {v : Value} (hv : v.isInvalid = false) :
    Shows base held locals (also known [name]) s' (env.setVariable name v).1 := by
  have hg := Environment.grows_setVariable h.sound name hv
  have hnew : (env.setVariable name v).1.Bound name := Environment.bound_setVariable h.sound hv
  refine ⟨h.sound.setVariable name v, fun other => ?_, fun other hl hn => ?_,
    fun other cell hc => hg.here (h.cells other cell hc), fun other hl hn => ?_⟩
  · rw [Slots.function?, hw.functions, Environment.function?, Environment.functions_setVariable]
    exact h.functions other
  · rcases hw.names hn with rfl | hn
    · exact hnew
    · exact hg.here (h.named other hl hn)
  · rcases also_iff.1 hn with hn | hn
    · exact hg.here (h.locals other hl hn)
    · obtain rfl := List.mem_singleton.1 hn
      exact hnew

/-- A function is defined. -/
theorem define (h : Shows base held locals known s env) (name : String) (f : Inline) :
    Shows base held locals known (s.define name f) (env.addFunction name f.function) := by
  have hslots : ∀ other, (s.define name f).function? other =
      if other = name then some f else s.function? other := fun other => bound?_cons
  refine ⟨h.sound.addFunction name _, fun other => ?_, h.named, h.cells, h.locals⟩
  rw [h.sound.function?_addFunction, hslots]
  split
  · rfl
  · exact h.functions other

end Shows

/-! ## Guarded computations from slots to slots -/

variable (base held locals) in
/-- From one environment to another, the code goes on with other slots and more known names, inside
with the same functions. -/
structure GoesOn (inner : Bool) (known : String → Bool) (s : Slots) (env env' : Environment) :
    Prop where
  shows : Shows base held locals known s env'
  grows : env.Grows env'
  functions : inner → env'.functions = env.functions

variable (base held locals) in
/-- **A guarded computation from slots to slots**: without a fault its result is as it should be,
and the names that the code reads behind it are bound. -/
def Visible {α : Type} (inner : Bool) (known : String → Bool) (names : List String) (s s' : Slots)
    (x : Eval α) (Ok : α → Prop) : Prop :=
  Guarded (Shows base held locals known s) x fun a env env' =>
    Ok a ∧ GoesOn base held locals inner (also known names) s' env env'

variable (base held locals) in
/-- A guarded computation that leaves bound names bound and functions as they are. -/
def Still {α : Type} (known : String → Bool) (s : Slots) (x : Eval α) (Ok : α → Prop) : Prop :=
  Guarded (Shows base held locals known s) x fun a env env' => Ok a ∧ Stays held env env'

section Guarded

variable {α β : Type} {x y : Eval α} {f : α → Eval β} {Ok Ok₁ : α → Prop} {Ok' : β → Prop}

namespace Visible

theorem congr (h : Visible base held locals inner known names s s' y Ok)
    (hxy : ∀ st : Engine, Shows base held locals known s st.env → x st = y st) :
    Visible base held locals inner known names s s' x Ok :=
  Guarded.congr h hxy

theorem imp (h : Visible base held locals inner known names s s' x Ok) (hok : ∀ a, Ok a → Ok₁ a)
    (hn : ∀ name ∈ names', name ∈ names) :
    Visible base held locals inner known names' s s' x Ok₁ :=
  Guarded.mono h (fun _ => id) fun a _ _ _ ⟨ha, hp⟩ => ⟨hok a ha, hp.shows.mono fun name hk =>
    also_iff.2 ((also_iff.1 hk).imp_right (hn name)), hp.grows, hp.functions⟩

/-- The calls that are going on have no names. -/
theorem of_active {active active' : List String}
    (h : Visible base held locals inner known names { s with active }
      { s' with active := active' } x Ok) : Visible base held locals inner known names s s' x Ok :=
  Guarded.mono h (fun _ h => h.of_names (fun _ _ => id) rfl) fun _ _ _ _ ⟨ha, hp⟩ =>
    ⟨ha, hp.shows.of_names (fun _ _ => id) rfl, hp.grows, hp.functions⟩

/-- **Two computations one after the other.** -/
theorem bind (hx : Visible base held locals inner known names s s₁ x Ok)
    (hf : ∀ a, Ok a → Visible base held locals inner (also known names) names' s₁ s' (f a) Ok')
    (hmf : ∀ a, Moves KeepsLog (f a)) :
    Visible base held locals inner known (names ++ names') s s' (x >>= f) Ok' := by
  have halso : also (also known names) names' = also known (names ++ names') := by
    funext name
    simp [also, Bool.or_assoc]
  refine Guarded.bind hx ?_ hmf
  rintro a env env₁ - ⟨ha, hp⟩
  refine (hf a ha).mono (fun _ h => h ▸ hp.shows) ?_
  rintro b env₂ env₃ rfl ⟨hb, hp'⟩
  refine ⟨hb, ?_⟩
  exact ⟨halso ▸ hp'.shows, hp.grows.trans hp'.grows, fun hi =>
    (hp'.functions hi).trans (hp.functions hi)⟩

/-- Inside, functions stay as they are. -/
theorem still (h : Visible base held locals true known names s s' x Ok) :
    Still base held locals known s x Ok :=
  Guarded.mono h (fun _ => id) fun _ _ _ _ ⟨ha, hp⟩ =>
    ⟨ha, hp.shows.sound, hp.grows, hp.functions rfl⟩

end Visible

theorem visible_pure {a : α} (h : Ok a) :
    Visible base held locals inner known [] s s (pure a) Ok :=
  guarded_pure fun env hst => ⟨h, hst.mono fun name hn => by simpa [also] using hn, .refl env,
    fun _ => rfl⟩

theorem visible_check {r : Except Fault Value} (h : Fair r) :
    Visible base held locals inner known [] s s (Eval.check r) (·.isInvalid = false) := by
  refine (guarded_check h).mono (fun _ => id) ?_
  rintro v env _ hst ⟨hv, rfl⟩
  exact ⟨hv, hst.mono fun name hn => by simpa [also] using hn, .refl _, fun _ => rfl⟩

/-- What is bound in a place inside is forgotten behind it. -/
theorem Still.visible (h : Still base held locals known s x Ok) (hw : s.Widens locals true s') :
    Visible base held locals inner known [] s s' x Ok :=
  Guarded.mono h (fun _ => id) fun _ _ _ hst ⟨ha, hs⟩ => ⟨ha, ((hst.stays hs).widen hw).mono
    fun name hn => by simpa [also] using hn, hs.grows, fun _ => hs.functions⟩

theorem Still.congr (h : Still base held locals known s y Ok)
    (hxy : ∀ st : Engine, Shows base held locals known s st.env → x st = y st) :
    Still base held locals known s x Ok :=
  Guarded.congr h hxy

theorem Still.of_shows (h : Still base held locals known' s₁ x Ok)
    (hs : ∀ env, Shows base held locals known s env → Shows base held locals known' s₁ env) :
    Still base held locals known s x Ok :=
  Guarded.mono h hs fun _ _ _ _ h => h

theorem Still.of_widens (h : Still base held locals known s₁ x Ok) (hw : s.Widens locals true s₁) :
    Still base held locals known s x Ok :=
  h.of_shows fun _ hst => hst.widen hw

theorem Still.bind (hx : Still base held locals known s x Ok)
    (hf : ∀ a, Ok a → Still base held locals known s (f a) Ok')
    (hmf : ∀ a, Moves KeepsLog (f a)) : Still base held locals known s (x >>= f) Ok' := by
  refine Guarded.bind hx (fun a env env₁ hst ⟨ha, hs⟩ => ?_) hmf
  refine (hf a ha).mono (fun _ h => h ▸ hst.stays hs) fun b env₂ env₃ heq ⟨hb, hs'⟩ => ⟨hb, ?_⟩
  subst heq
  exact hs.trans hs'

/-- **A block.** -/
theorem Still.inBlock (h : Still base held locals known s x Ok) :
    Still base held locals known s (Eval.inBlock x) Ok :=
  Guarded.inBlock h (fun _ hst => hst.enter) fun _ _ _ hst ⟨ha, hs⟩ => ⟨ha, hs.leave hst.sound⟩

/-- What happens where names have been bound. -/
theorem still_bindAll {vs : List Value} (hlen : vs.length = names.length)
    (hvs : ∀ v ∈ vs, v.isInvalid = false) (hm : Moves KeepsLog x)
    (hx : Still base held locals (also known names) (s.pushAll names) x Ok) :
    Still base held locals known s (bindAll names vs >>= fun _ => x) Ok := by
  refine Guarded.bind (Q := fun _ env env' => env' = env.addVariables (names.zip vs))
    (guarded_change fun _ _ => rfl) (fun _ env env₁ hst heq => ?_) fun _ => hm
  subst heq
  have hst₁ := hst.pushAll hlen hvs
  refine hx.mono (fun _ h => h ▸ hst₁) fun a env₂ env₃ heq ⟨ha, hs⟩ => ⟨ha, ?_⟩
  subst heq
  exact (Stays.addVariables hst.sound fun p hp => hvs _ (List.of_mem_zip hp).2).trans hs

/-- **The rounds of a loop** in its block. -/
theorem still_reduce {body : Eval Value} (hm : Moves KeepsLog body)
    (hbody : Still base held locals (also known [name]) (s.push name).2 body (·.isInvalid = false))
    (op : BinaryOp) (empty : Float) (r : Range) :
    Still base held locals known s (Eval.inBlock (reduce name body op empty (.range r)))
      (·.isInvalid = false) := by
  refine guarded_at fun env hst => ?_
  -- Every round starts where the rounds before have left the block.
  have hround : ∀ x, Guarded (Stays held env.enter) (withItem name body (.number x))
      fun v _ env' => v.isInvalid = false ∧ Stays held env.enter env' := by
    intro x
    have hitem : Still base held locals known s (bindAll [name] [.number x] >>= fun _ => body)
        (·.isInvalid = false) :=
      still_bindAll rfl (fun v hv => List.mem_singleton.1 hv ▸ rfl) hm hbody
    exact hitem.mono (fun _ hs => hst.enter.stays hs) fun v _ _ hs ⟨hv, hs'⟩ => ⟨hv, hs.trans hs'⟩
  refine (guarded_reduce hm hround empty r).inBlock (fun env₁ heq => ?_)
    fun v env₁ env₂ heq ⟨hv, hs⟩ => ⟨hv, ?_⟩
  · subst heq
    exact .refl hst.sound.enter
  · subst heq
    exact hs.leave hst.sound

end Guarded

/-! ## Formulas -/

/-- A loop with its bounds. -/
theorem still_loop {n : Nat} {kind : LoopKind} {op : BinaryOp} {seed : Float} {a : Expr}
    {d : Option Expr} {b body : Expr} (hk : reduction? kind = some (op, seed))
    (ha : Still base held locals known s (eval (deeperAt n) a) (·.isInvalid = false))
    (hd : Still base held locals known s (evalOr (deeperAt n) (.number 1.0) d)
      (·.isInvalid = false))
    (hb : Still base held locals known s (eval (deeperAt n) b) (·.isInvalid = false))
    (hblock : ∀ r, Still base held locals known s
      (Eval.inBlock (reduce name (eval (deeperAt n) body) op seed (.range r)))
      (·.isInvalid = false)) :
    Still base held locals known s
      (eval (deeperAt n) (.loop kind name (.range a d b) body none)) (·.isInvalid = false) := by
  have hm := moves_deeperAt (R := KeepsLog) n
  have hreduce : ∀ items, runLoop name (eval (deeperAt n) body) items kind =
      reduce name (eval (deeperAt n) body) op seed items := fun items => by
    cases kind <;> cases hk <;> rfl
  have heval : eval (deeperAt n) (.loop kind name (.range a d b) body none) =
      (eval (deeperAt n) a >>= fun u => evalOr (deeperAt n) (.number 1.0) d >>= fun w =>
        eval (deeperAt n) b >>= fun t => checkRange u w t >>=
          overRange (reduce name (eval (deeperAt n) body) op seed)) := by
    rw [← show (fun items => runLoop name (eval (deeperAt n) body) items kind) = _ from
      funext hreduce, eval, evalSource]
    rfl
  have hmr : ∀ r, Moves KeepsLog (overRange (reduce name (eval (deeperAt n) body) op seed) r) :=
    moves_overRange fun items =>
      hreduce items ▸ moves_inBlock (moves_runLoop (moves_eval hm body) _ kind)
  have hmc := fun u w t => moves_bind (moves_checkRange (R := KeepsLog) u w t) hmr
  have hmb := fun u w => moves_bind (moves_eval (R := KeepsLog) hm b) (hmc u w)
  have hmd := fun u => moves_bind (moves_evalOr (R := KeepsLog) hm (.number 1.0) d) (hmb u)
  rw [heval]
  refine ha.bind (fun u hu => hd.bind (fun w hw => hb.bind (fun t ht => ?_) (hmc u w)) (hmb u)) hmd
  have hcheck : Still base held locals known s (checkRange u w t) (fun r => ∃ q, r = some q) :=
    (guarded_checkRange hu hw ht).mono (fun _ => id) <| by
      rintro r env _ hst ⟨hr, rfl⟩
      exact ⟨hr, .refl hst.sound⟩
  refine hcheck.bind (fun r hr => ?_) hmr
  obtain ⟨q, rfl⟩ := hr
  exact hblock q

/-- The body of a function of the formula, with as many arguments as parameters. -/
theorem still_inline {n : Nat} {f : Inline} {vs : List Value} (hvs : ∀ v ∈ vs, v.isInvalid = false)
    (hbody : ∀ k, Still base held locals (also (s.outer base locals) f.params)
      (s.pushAll f.params) (eval (deeperAt k) f.body) (·.isInvalid = false)) :
    Still base held locals known s (invoke (deeperAt n) name f.function vs)
      (·.isInvalid = false) := by
  -- The body of a function knows no local name of its caller.
  have houter : ∀ env, Shows base held locals known s env →
      Shows base held locals (s.outer base locals) s env := fun env hst =>
    { hst with
      locals := fun name hl hn => by
        rw [(Slots.outer_iff.1 hn).1] at hl
        cases hl }
  refine guarded_invoke_user hvs (fun hnil k => ?_) fun hlen k => ?_
  · refine (hbody k).of_shows fun env hst => ?_
    have hpush : Shows base held locals (also (s.outer base locals) f.params) _
        (env.addVariables (f.params.zip [])) :=
      (houter env hst).pushAll (by rw [hnil]; rfl) (by simp)
    rwa [hnil] at hpush ⊢
  · have hbound : Still base held locals (s.outer base locals) s
        (bindAll f.params vs >>= fun _ => eval (deeperAt k) f.body) (·.isInvalid = false) :=
      still_bindAll hlen hvs (moves_eval (moves_deeperAt k) f.body) (hbody k)
    exact (hbound.of_shows houter).inBlock

variable (base held locals) in
/-- Evaluating a piece of a formula with calls at most `n` deep. -/
def Piece.Visible (inner : Bool) (known : String → Bool) (n : Nat) (s s' : Slots) : Piece → Prop
  | .tree e => Bytecode.Visible base held locals inner known e.binds s s' (eval (deeperAt n) e)
      (·.isInvalid = false)
  | .args es => Bytecode.Visible base held locals inner known (Expr.bindsAll es) s s'
      (evalAll (deeperAt n) es) fun vs => vs.length = es.length ∧ ∀ v ∈ vs, v.isInvalid = false
  | .rest es => ∀ last : Value, last.isInvalid = false →
      Bytecode.Visible base held locals inner known (Expr.bindsAll es) s s'
        (evalSequence (deeperAt n) es last) (·.isInvalid = false)
  | .optional _ o => ∀ missing : Value, missing.isInvalid = false →
      Bytecode.Visible base held locals inner known [] s s' (evalOr (deeperAt n) missing o)
        (·.isInvalid = false)
  | .branches bs o => Bytecode.Visible base held locals inner known (Expr.bindsFirst bs) s s'
      (evalBranches (deeperAt n) bs (evalOr (deeperAt n) .invalid o)) (·.isInvalid = false)

/-- A name that is read. -/
theorem visible_var {deeper : Deeper} (hn : locals name → known name)
    (hr : s.Names name ∨ ∃ cell, globalCell base name = .ok cell) :
    Visible base held locals inner known [] s s (eval deeper (.var name))
      (·.isInvalid = false) := by
  refine guarded_at fun env hst => ?_
  obtain ⟨v, hv, hvalid⟩ := hst.bound hn hr
  have hpure : Visible base held locals inner known [] s s (pure v) (·.isInvalid = false) :=
    visible_pure hvalid
  refine Guarded.congr (y := pure v) ?_ fun st heq => ?_
  · exact hpure.mono (fun _ heq => heq ▸ hst) fun _ _ _ _ h => h
  · rw [eval_var, heq, hv]

/-- A value that is written. -/
theorem visible_assign {i : Instruction} (hw : Written base name s i s') {v : Value}
    (hv : v.isInvalid = false) :
    Visible base held locals inner known [name] s s'
      (if v.isInvalid then pure .invalid else Eval.assign name v) (·.isInvalid = false) := by
  rw [hv]
  refine (guarded_assign name v).mono (fun _ => id) ?_
  rintro u env _ hst ⟨rfl, rfl⟩
  exact ⟨hv, hst.assign hw hv, Environment.grows_setVariable hst.sound name hv,
    fun _ => Environment.functions_setVariable⟩

/-- A call of a function of the catalog with a fast path. -/
theorem visible_invoke_plain {f : Function} (hm : (name, f) ∈ Catalog.functions)
    (hp : Catalog.hasPlain name) {deeper : Deeper} {vs : List Value}
    (hvs : ∀ v ∈ vs, v.isInvalid = false) :
    Visible base held locals inner known [] s s (invoke deeper name f vs)
      (·.isInvalid = false) := by
  have hstill : Still base held locals known s (invoke deeper name f vs) (·.isInvalid = false) := by
    refine (guarded_invoke_plain hm hp deeper hvs).mono (fun _ => id) ?_
    rintro v env _ hst ⟨hv, rfl⟩
    exact ⟨hv, .refl hst.sound⟩
  exact hstill.visible (.refl s)

/-- **Evaluating a blockwise formula** blames no name before anything else, and leaves the names
bound that the code reads behind it. -/
theorem Lowered.visible (hcat : base.Catalogued) {p : Piece} {code : Code}
    (h : Lowered base p s code s') (hp : p.blockwise locals inner known)
    (hs : s.Tight base locals known) (hdirect : Direct code) (n : Nat) :
    p.Visible base held locals inner known n s s' := by
  have hm := moves_deeperAt (R := KeepsLog)
  induction h generalizing inner known n with
  | number | bool | empty => exact visible_pure rfl
  | slot h =>
    refine visible_var (fun hl => ?_) (.inl (Slots.names_iff.2 (by simp [h])))
    simpa [Piece.blockwise, Expr.blockwise, hl] using hp
  | cell h hc =>
    refine visible_var (fun hl => ?_) (.inr ⟨_, hc⟩)
    simpa [Piece.blockwise, Expr.blockwise, hl] using hp
  | operation h hes ih =>
    have hes' := ih (blockwiseAll_of_operation h hp) hs (direct_append.1 hdirect).1 n
    refine ((Visible.bind hes' (fun vs hvs => visible_check (fair_operate h hvs.1 hvs.2))
      fun vs => moves_check _).imp (fun _ => id) fun name hn => ?_).congr fun st _ => by
        rw [eval_operation h]
    rw [binds_of_operation h] at hn
    exact List.mem_append_left _ hn
  | @assign s s₁ s₂ name e code write he hw ih =>
    simp only [Piece.blockwise, Expr.blockwise, Bool.and_eq_true] at hp
    have he' := ih hp.1 hs (direct_append.1 hdirect).1 n
    refine ((Visible.bind he' (fun v hv => visible_assign hw hv) fun v => ?_).imp (fun _ => id)
      fun other ho => ?_).congr fun st _ => by rw [eval]
    · split
      · exact moves_pure _
      · exact moves_assign name v
    · simpa [Expr.binds, or_comm] using ho
  | @cases s s' bs o code h ih =>
    exact Visible.congr (ih (blockwise_branches hp) hs hdirect n) fun st _ => by rw [eval]
  | @loop s s₁ s₂ s₃ s₄ kind op seed name a d b body default start step stop code hk hb hd ha hbody
      ihb ihd iha ihbody =>
    obtain ⟨rfl, hpa, hpd, hpb, hpbody⟩ := blockwise_loop hp
    obtain ⟨hdira, hdird, hdirb, hdirbody⟩ := direct_loop.1 hdirect
    have hw₁ : s.Widens locals true s₁ := (Widens.fresh s).trans (hb.tight hpb hs.fresh).1
    have hs₁ := (hs.of_widens hw₁).fresh
    have hw₂ : s.Widens locals true s₂ := hw₁.trans ((Widens.fresh s₁).trans (hd.tight hpd hs₁).1)
    have hs₂ := hs.of_widens hw₂
    have hw₃ : s.Widens locals true s₃ := hw₂.trans (ha.tight hpa hs₂).1
    have hs₃ := ((hs.of_widens hw₃).push name).fresh
    have hw₄ := (hbody.tight hpbody hs₃).1
    have hstart := (Visible.still (iha hpa hs₂ hdira n)).of_widens hw₂
    have hstep := (Visible.still (ihd hpd hs₁ hdird n (.number 1.0) rfl)).of_widens
      (hw₁.trans (.fresh s₁))
    have hstop := (Visible.still (ihb hpb hs.fresh hdirb n)).of_widens (.fresh s)
    have hround := (Visible.still (ihbody hpbody hs₃ hdirbody n)).of_widens (.fresh _)
    exact (still_loop hk hstart hstep hstop fun r =>
      (still_reduce (moves_eval (hm n) body) hround op seed r).of_widens hw₃).visible
        (hw₃.trans hw₄.pop)
  | @sequence s s₁ s₂ e es first rest he hes ihe ihes =>
    obtain ⟨hpe, hpes⟩ := blockwiseAll_cons.1 hp
    have hdir := direct_append.1 hdirect
    have he' := ihe hpe hs hdir.1 n
    have hes' := ihes hpes (he.tight hpe hs).2 hdir.2 n
    exact (Visible.bind he' hes' fun v => moves_evalSequence (hm n) es v).congr
      fun st _ => by rw [eval, evalSequence]
  | @define s name params body =>
    simp only [Piece.blockwise, Expr.blockwise, Bool.and_eq_true, Bool.not_eq_true'] at hp
    intro st hst
    rw [eval]
    refine .inl ⟨rfl, rfl, (hst.define name ⟨params, body⟩).mono fun other ho => ?_,
      Environment.grows_addFunction hst.sound name _, fun hi => ?_⟩
    · simpa [also, Expr.binds] using ho
    · rw [hp.1] at hi
      cases hi
  | @inline s s₁ s₂ s₃ name args f code body hf hb hn hargs hbody ihargs ihbody =>
    have hdir := direct_append.1 hdirect
    obtain ⟨active, rfl⟩ := Slots.exists_of_beginCall? hb
    have hs₁ : { s with active }.Tight base locals known := hs.of_names (fun _ => id) rfl
    obtain ⟨hw, hs₂⟩ := hargs.tight hp hs₁
    have hpbody := Expr.blockwise_mono _ _ (also_mono (fun _ => hw.of_active.outer) f.params)
      (hs.bodies name f hf)
    have hsbody : (s₂.pushAll f.params).Tight base locals (also (s₂.outer base locals) f.params) :=
      Tight.pushAll ⟨fun n hn _ => (Slots.outer_iff.1 hn).2, hs₂.bodies⟩ f.params
    have hargs' := Visible.of_active (ihargs hp hs₁ (direct_append.1 hdir.1).1 n)
    refine ((Visible.bind hargs' (fun vs hvs => ?_) fun vs =>
      moves_invoke (hm n) name f.function vs).imp (fun _ => id)
        fun _ => List.mem_append_left []).congr fun st hst => ?_
    · exact (still_inline hvs.2 fun k => Visible.still (ihbody hpbody hsbody hdir.2 k)).visible
        (hbody.tight hpbody hsbody).1.endCall
    · rw [eval_call, hst.functions, hf]
      rfl
  | @call s s' name args f code hl hf hn hargs ih =>
    have hdir := direct_append.1 hdirect
    have hmem := hcat name f hf
    have hplain := Catalog.hasPlain_of_callInstruction hmem (direct_cons.1 hdir.2).1
    refine ((Visible.bind (ih hp hs hdir.1 n) (fun vs hvs => ?_) fun vs =>
      moves_invoke (hm n) name f vs).imp (fun _ => id)
        fun _ => List.mem_append_left []).congr fun st hst => ?_
    · exact visible_invoke_plain hmem hplain hvs.2
    · refine Catalog.eval_call hmem hplain ?_ args
      rw [hst.functions, hl, hf]
      rfl
  | noArgs => exact visible_pure ⟨rfl, by simp⟩
  | @consArg s s₁ s₂ e es first rest he hes ihe ihes =>
    obtain ⟨hpe, hpes⟩ := blockwiseAll_cons.1 hp
    have hdir := direct_append.1 hdirect
    have he' := ihe hpe hs hdir.1 n
    have hes' := ihes hpes (he.tight hpe hs).2 hdir.2 n
    refine (Visible.bind he' (fun v hv => ?_) fun v =>
      moves_bind (moves_evalAll (hm n) es) fun vs => moves_pure (v :: vs)).congr
        fun st _ => by rw [evalAll]
    refine (Visible.bind hes' (fun vs hvs => visible_pure ?_) fun vs =>
      moves_pure _).imp (fun _ => id) fun _ => List.mem_append_left []
    exact ⟨congrArg (· + 1) hvs.1, List.forall_mem_cons.2 ⟨hv, hvs.2⟩⟩
  | noRest => exact fun last hlast => visible_pure hlast
  | @consRest s s₁ s₂ e es first rest he hes ihe ihes =>
    intro last _
    obtain ⟨hpe, hpes⟩ := blockwiseAll_cons.1 hp
    have hdir := direct_append.1 hdirect
    have he' := ihe hpe hs (direct_cons.1 hdir.1).2 n
    have hes' := ihes hpes (he.tight hpe hs).2 hdir.2 n
    exact (Visible.bind he' hes' fun v => moves_evalSequence (hm n) es v).congr
      fun st _ => by rw [evalSequence]
  | missing => exact fun missing hmissing => visible_pure hmissing
  | present he ih =>
    exact fun missing _ => Visible.imp (ih (hp _ rfl) hs hdirect n) (fun _ => id) (by simp)
  | @otherwise s s' o code h ih =>
    have hpo : (Piece.optional noValue o).blockwise locals true known := blockwise_otherwise hp
    obtain ⟨-, e, rfl, -⟩ := hp
    exact ((Visible.still (ih hpo hs hdirect n .void rfl)).congr fun st _ => by
      rw [evalBranches, evalOr, evalOr]).visible (h.tight hpo hs).1
  | @branch s s₁ s₂ s₃ c e bs o condition value rest hc he hbs ihc ihe ihbs =>
    obtain ⟨hpc, hpe, hpbs⟩ := blockwise_branch hp
    obtain ⟨hdirc, hdire, hdirbs⟩ := direct_branch.1 hdirect
    have hs₁ := (hc.tight hpc hs).2
    have hw₂ := (he.tight hpe hs₁).1
    have hs₂ := hs₁.of_widens hw₂
    have hw₃ := hw₂.trans (hbs.tight hpbs hs₂).1
    have hc' := ihc hpc hs hdirc n
    have he' := Visible.still (ihe hpe hs₁ hdire n)
    have hbs' := (Visible.still (ihbs hpbs hs₂ hdirbs n)).of_widens hw₂
    refine (Visible.bind hc' (fun v hv => ?_) fun v => ?_).imp (fun _ => id)
      fun _ => List.mem_append_left []
    · split
      · exact he'.visible hw₃
      · exact hbs'.visible hw₃
      · rw [hv]
        exact guarded_fail fun name h => by cases h
    · split
      · exact moves_eval (hm n) e
      · exact moves_evalBranches (hm n) bs _ (moves_evalOr (hm n) .invalid o)
      · split
        · exact moves_pure _
        · exact moves_fail _

/-! ## Compiled formulas -/

/-- **A compiled blockwise formula** reads no name that the evaluation does not see: from a
reachable engine with the functions of the catalog, the evaluation records no fault, or first one
that blames no name. -/
theorem log_eq_or_blames_of_blockwise {cells : List HostCell} {st st' : Engine} {e : Expr}
    {p : Program} {v : Value} (h : Engine.Reachable cells st) (hcat : st.HasCatalog)
    (he : e.blockwise locals false fun name => st.env.hasVariable name && !locals name)
    (hp : compile st.env e = .ok p) (hdirect : Direct p.code.toList)
    (hv : Engine.evaluate e st = (v, st')) :
    st'.log = st.log ∧ v.isInvalid = false ∨
      ∃ fault, st'.log[st.log.size]? = some fault ∧
        ∀ name, fault.fault ≠ .undefinedVariable name := by
  obtain ⟨s, hl, -⟩ := lowered_of_compile hp
  have htight : Tight st.env locals (fun name => st.env.hasVariable name && !locals name) {} := by
    refine ⟨fun name hn _ => .inr ?_, fun name f hf => ?_⟩
    · exact (Bool.and_eq_true _ _ ▸ hn).1
    · cases hf
  have hshows : Shows st.env (HostCell.numberCells cells) locals
      (fun name => st.env.hasVariable name && !locals name) {} st.env := by
    refine ⟨h.sound, fun name => rfl, fun name _ hn => ?_, fun name cell hc => ?_,
      fun name hl hn => ?_⟩
    · rcases hn with hn | hn <;> cases hn
    · obtain ⟨w, hw, hcell⟩ := Frozen.exists_of_globalCell hc
      refine ⟨st.env.read w, by rw [Environment.value?, hw], ?_⟩
      rcases Variable.numberCell?_eq_some.1 hcell with rfl | rfl <;> rfl
    · simp [hl] at hn
  have hvisible := hl.visible (catalogued hcat) he htight hdirect st.settings.callDepth st hshows
  rw [evaluate_eq] at hv
  rw [hv] at hvisible
  exact hvisible.imp_left fun h => ⟨h.1, h.2.1⟩

/-- A name without a slot that is no variable becomes a temporary. -/
theorem writeName_of_new {s : Slots} (h : s.lookup? name = none)
    (hv : base.hasVariable name = false) :
    writeName base name s = .ok ([.writeSlot (s.temporary name).1], (s.temporary name).2) := by
  have hrun : (writeName base name).run s =
      .ok ([.writeSlot (s.temporary name).1], (s.temporary name).2) := by
    simp only [writeName, run_bind_eq_ok, run_get_eq_ok]
    refine ⟨s, s, ⟨rfl, rfl⟩, ?_⟩
    rw [h]
    simp only [hv, Bool.false_eq_true, if_false, run_bind_eq_ok, run_modifyGet_eq_ok,
      run_pure_eq_ok]
    exact ⟨_, _, rfl, rfl, rfl⟩
  exact hrun

/-- `prod(i, 1, 3, (t = i) * t)`. -/
def localProduct : Expr :=
  .loop .prod "i" (.range (.constant (.number 1.0)) none (.constant (.number 3.0)))
    (.binary .mul (.assign "t" (.var "i")) (.var "t")) none

/-- The program of `localProduct`. -/
def localProgram : Program where
  code := (loopSetup ⟨2, 3, 1, 0⟩ 1.0 [.constant 1.0] [.constant 1.0] [.constant 3.0] ++
    loopCode ⟨2, 3, 1, 0⟩ .mul
      [.readSlot 2, .dup, .writeSlot 4, .readSlot 4, .arithmetic .mul]).toArray
  heapSize := 5

/-- The slots in the body of a loop without names of its own. -/
def loopBodySlots : Slots where
  scope := [("i", 2)]
  size := 4

theorem run_localBody : (lower (Engine.create {}).env none
    (.binary .mul (.assign "t" (.var "i")) (.var "t"))).run loopBodySlots =
      .ok ([.readSlot 2, .dup, .writeSlot 4, .readSlot 4, .arithmetic .mul],
        (loopBodySlots.temporary "t").2) :=
  run_bind_eq_ok.2 ⟨_, _, run_bind_eq_ok.2 ⟨_, _, rfl, run_bind_eq_ok.2
    ⟨_, _, writeName_of_new rfl
      (Engine.hasVariable_create (by decide) (by decide)), rfl⟩⟩, rfl⟩

theorem compile_localProduct :
    compile (Engine.create {}).env localProduct = .ok localProgram := by
  have h : compile (Engine.create {}).env localProduct = (do
    let lowered ← StateT.run (do
      let body ← lower (Engine.create {}).env none
        (.binary .mul (.assign "t" (.var "i")) (.var "t"))
      modify Slots.pop
      return loopSetup ⟨2, 3, 1, 0⟩ 1.0 [.constant 1.0] [.constant 1.0] [.constant 3.0] ++
        loopCode ⟨2, 3, 1, 0⟩ .mul body : Lower Code) loopBodySlots
    return ⟨lowered.1.toArray, lowered.2.size⟩) := rfl
  rw [h]
  simp only [StateT.run_bind]
  rw [run_localBody]
  rfl

theorem log_eq_or_blames_localProduct : ∃ p v st',
    localProduct.blockwise (· == "t") false
      (fun name => (Engine.create {}).env.hasVariable name && !(name == "t")) ∧
    compile (Engine.create {}).env localProduct = .ok p ∧ Direct p.code.toList ∧
    Engine.evaluate localProduct (.create {}) = (v, st') ∧
    (st'.log = (Engine.create {}).log ∧ v.isInvalid = false ∨
      ∃ fault, st'.log[(Engine.create {}).log.size]? = some fault ∧
        ∀ name, fault.fault ≠ .undefinedVariable name) := by
  have he : localProduct.blockwise (· == "t") false
      (fun name => (Engine.create {}).env.hasVariable name && !(name == "t")) := by
    simp [localProduct, Expr.blockwise, Expr.blockwiseOption, Expr.binds, also]
  have hdirect : Direct localProgram.code.toList := by decide +kernel
  exact ⟨localProgram, _, _, he, compile_localProduct, hdirect, rfl,
    log_eq_or_blames_of_blockwise (.create {}) (fun _ => rfl) he compile_localProduct hdirect rfl⟩

/-! ## Names that are read behind their block -/

/-- `t = 2`. -/
def assigning : Expr := .assign "t" (.constant (.number 2.0))

/-- `f(x) = (t = 2); f(0); t`. -/
def leakedName : Expr :=
  .sequence [.define "f" ["x"] assigning, .call "f" [.constant (.number 0.0)], .var "t"]

/-- The program of `leakedName`. -/
def leakingProgram : Program where
  code := (noValue ++ [Instruction.pop, .constant 0.0, .writeSlot 0, .constant 2.0, .dup,
    .writeSlot 1, .pop, .readSlot 1]).toArray
  heapSize := 2

/-- The slots in the body of the only function. -/
def calledSlots : Slots where
  scope := [("x", 0)]
  size := 1
  functions := [("f", ⟨["x"], assigning⟩)]
  active := ["f"]

theorem compile_leakedName : compile (Engine.create {}).env leakedName = .ok leakingProgram := by
  let env := (Engine.create {}).env
  have hbody : (lower env none assigning).run calledSlots =
      .ok ([.constant 2.0, .dup, .writeSlot 1], (calledSlots.temporary "t").2) :=
    run_bind_eq_ok.2 ⟨_, _, rfl, run_bind_eq_ok.2
      ⟨_, _, writeName_of_new rfl
      (Engine.hasVariable_create (by decide) (by decide)), rfl⟩⟩
  have h : compile env leakedName = (do
    let lowered ← StateT.run (do
      let rest ← (do
        let call ← (do
          let body ← lower env none assigning
          popAll 1
          modify Slots.endCall
          return [Instruction.constant 0.0, .writeSlot 0] ++ body : Lower Code)
        let last ← lowerRest env (some (lowerAt env 0)) [.var "t"]
        return .pop :: call ++ last : Lower Code)
      return noValue ++ rest : Lower Code) calledSlots
    return ⟨lowered.1.toArray, lowered.2.size⟩) := rfl
  rw [h]
  simp only [StateT.run_bind]
  rw [hbody]
  rfl

/-- Evaluating `leakedName` where `t` has no value. -/
theorem eval_leakedName {st : Engine} (hs : st.env.Sound held) (ht : st.env.value? "t" = none)
    (n : Nat) : ∃ st', eval (deeperAt (n + 1)) leakedName st = (.invalid, st') ∧
      st'.log = st.log.push (Fault.undefinedVariable "t").unlocated := by
  let st₁ := st.onEnv (·.addFunction "f" (.user ["x"] assigning))
  let st₂ := st₁.onEnv fun env => env.enter.addVariable "x" (.number 0.0)
  let st₃ := st₂.onEnv (·.addVariable "t" (.number 2.0))
  have hs₁ : st₁.env.Sound held := hs.addFunction "f" _
  have hassign : eval (deeperAt n) assigning st₂ = (.number 2.0, st₃) := by
    have hvalue : st₂.env.value? "t" = none := (hs₁.enter.value?_addVariable "x" _ "t").trans ht
    have hget : st₂.env.vars.get? "t" = none := by
      cases hw : st₂.env.vars.get? "t" with
      | none => rfl
      | some w => simp [Environment.value?, hw] at hvalue
    change Eval.assign "t" (.number 2.0) st₂ = _
    unfold Eval.assign Environment.setVariable
    dsimp only
    rw [hget]
    rfl
  have hf : st₁.env.function? "f" = some (.user ["x"] assigning) :=
    (hs.function?_addFunction "f" _ "f").trans (if_pos rfl)
  have hinside : st₁.env.Inside st₃.env :=
    ((Environment.Inside.enter hs₁).addVariable "x" (.number 0.0)).addVariable "t" (.number 2.0)
  have hs₃ : st₃.env.Sound held :=
    (hs₁.enter.addVariable "x" (.number 0.0)).addVariable "t" (.number 2.0)
  have hleave : (st₃.onEnv .leave).env.value? "t" = none :=
    ((hinside.leave hs₃).1.value? hs₁ hs₃.leave "t").trans ht
  refine ⟨(st₃.onEnv .leave).report (.undefinedVariable "t"), ?_, rfl⟩
  rw [leakedName, eval_sequence_cons, eval_sequence_cons, eval_sequence_single, eval_define,
    eval_call_unary hf]
  change eval _ _ ((eval (deeperAt n) assigning st₂).2.onEnv .leave) = _
  rw [hassign, eval_var, hleave]
  rfl

/-- **A name of a block is read behind it**: the evaluation sees no variable any more, but the
program reads the slot. -/
theorem runSteps_leakedName : ∃ p st' stv,
    compile (Engine.create {}).env leakedName = .ok p ∧
    p.runSteps 20 {} (.create {}) = (some (.ok 2.0), stv) ∧ stv.log = (Engine.create {}).log ∧
    Engine.evaluate leakedName (.create {}) = (.invalid, st') ∧
    st'.log = (Engine.create {}).log.push (Fault.undefinedVariable "t").unlocated := by
  have hsound : (Engine.create {}).env.Sound [] := (Engine.Reachable.create {}).sound
  obtain ⟨st', hv, hlog⟩ := eval_leakedName hsound
    (Engine.value?_create (by decide) (by decide)) 255
  exact ⟨leakingProgram, st', .create {}, compile_leakedName, rfl, rfl,
    (evaluate_eq leakedName (.create {})).trans hv, hlog⟩

end FormulaLang.Bytecode
