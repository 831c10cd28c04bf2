import FormulaLang.Proofs.Expr.Readable

/-!
# Forms that read back

* `text_callForm`, `text_literalOf`: a special form prints as a call of its arguments, and a
  literal as its rows.
* `Readable.assign`, `Readable.element`, `Readable.assignElement`: what begins with a name.
* **`Readable.callForm`**, **`Readable.defineForm`**: calls, special forms and definitions.
* **`AsWhole.literalOf`**, **`Readable.literalOf`**, `Readable.list`: literals in brackets and braces.
-/

namespace FormulaLang

/-! ## Printed forms -/

namespace Expr

theorem texts_eq_map (es : List Expr) : texts es = es.map text := by
  induction es with
  | nil => rfl
  | cons e es ih => rw [texts, ih, List.map_cons]

theorem rowTexts_eq_map (rows : List (List Expr)) :
    rowTexts rows = rows.map fun row => ", ".intercalate (row.map text) := by
  induction rows with
  | nil => rfl
  | cons row rows ih => rw [rowTexts, ih, List.map_cons, texts_eq_map]

theorem optionTexts_eq_map (o : Option Expr) : optionTexts o = o.toList.map text := by
  cases o <;> rfl

variable {es : List Expr} {e : Expr}

theorem height_lt_heightBelow (he : e ∈ es) : e.height < heightBelow es := by
  induction es with
  | nil => cases he
  | cons e' es ih =>
    rw [heightBelow]
    rcases List.mem_cons.1 he with rfl | he
    · omega
    · have := ih he
      omega

theorem heightBelow_le_heightRows {rows : List (List Expr)} (h : es ∈ rows) :
    heightBelow es ≤ heightRows rows := by
  induction rows with
  | nil => cases h
  | cons row rows ih =>
    rw [heightRows]
    rcases List.mem_cons.1 h with rfl | h
    · omega
    · have := ih h
      omega

end Expr

namespace Parser

open Lexer FormulaLang.Expr

/-- The tree prints as a call of arguments, above which it stands. -/
structure PrintsAs (name : String) (args : List Expr) (e : Expr) : Prop where
  text : e.text = name ++ "(" ++ ", ".intercalate (args.map Expr.text) ++ ")"
  height : heightBelow args ≤ e.height

section Forms

variable {args : List Expr} {e : Expr} {kind : LoopKind} {default : Option Expr}

theorem name_of_ofName? {name : String} (h : LoopKind.ofName? name = some kind) :
    kind.name = name := by
  unfold LoopKind.ofName? at h
  split at h <;> cases h <;> rfl

theorem printsAs_call (name : String) (args : List Expr) : PrintsAs name args (.call name args) :=
  ⟨by rw [Expr.text, texts_eq_map], by rw [Expr.height]⟩

theorem printsAs_loopOf (hf : loopOf kind args default = .ok e) :
    PrintsAs kind.name (args ++ default.toList) e := by
  have hdefault : heightBelow default.toList = heightOption default := by
    cases default <;> simp [heightBelow, heightOption]
  unfold loopOf at hf
  split at hf
  · cases hf
    refine ⟨?_, ?_⟩
    · simp [Expr.text, sourceTexts, optionTexts_eq_map]
    · simp only [List.cons_append, List.nil_append, heightBelow, Expr.height, heightSource,
        hdefault]
      omega
  · cases hf
    refine ⟨?_, ?_⟩
    · simp [Expr.text, sourceTexts, optionTexts_eq_map]
    · simp only [List.cons_append, List.nil_append, heightBelow, Expr.height, heightSource,
        heightOption, hdefault]
      omega
  · cases hf
    refine ⟨?_, ?_⟩
    · simp [Expr.text, sourceTexts, optionTexts_eq_map]
    · simp only [List.cons_append, List.nil_append, heightBelow, Expr.height, heightSource,
        heightOption, hdefault]
      omega
  · cases hf

theorem printsAs_loopForm (hf : loopForm kind args = .ok e) : PrintsAs kind.name args e := by
  unfold loopForm at hf
  dsimp only at hf
  by_cases hcalled : kind.isReduction ∧ args.length < 3
  · rw [if_pos hcalled] at hf
    cases hf
    exact printsAs_call _ _
  rw [if_neg hcalled] at hf
  by_cases harity : args.length < 3 + (if kind.takesDefault then 1 else 0) ∨
      5 + (if kind.takesDefault then 1 else 0) < args.length
  · rw [if_pos harity] at hf
    cases hf
  rw [if_neg harity] at hf
  split at hf
  · have hlast : args.dropLast ++ args.getLast?.toList = args := by
      cases hl : args.getLast? with
      | none => rw [List.getLast?_eq_none_iff.1 hl]; rfl
      | some a => exact List.dropLast_append_getLast? a hl
    exact hlast ▸ printsAs_loopOf hf
  · have hprints := printsAs_loopOf hf
    rwa [Option.toList_none, List.append_nil] at hprints

theorem pairUp_eq (args : List Expr) :
    branchTexts (pairUp args).1 ++ optionTexts (pairUp args).2 = args.map Expr.text ∧
      heightBelow args = max (heightBranches (pairUp args).1) (heightOption (pairUp args).2) := by
  induction args using pairUp.induct with
  | case1 c v rest pairs last hrest ih =>
    rw [hrest] at ih
    obtain ⟨htext, hheight⟩ := ih
    rw [pairUp, hrest]
    dsimp only at hheight ⊢
    refine ⟨by rw [branchTexts, List.cons_append, List.cons_append, htext]; rfl, ?_⟩
    rw [heightBelow, heightBelow, hheight, heightBranches]
    omega
  | case2 e => exact ⟨rfl, by simp [pairUp, heightBelow, heightBranches, heightOption]⟩
  | case3 => exact ⟨rfl, rfl⟩

/-- The name that a special form of cases prints with: three arguments are those of the shorter
form. -/
def casesName (args : List Expr) : String := if args.length = 3 then "if" else "cases"

theorem printsAs_cases (args : List Expr) (hargs : 2 ≤ args.length) :
    PrintsAs (casesName args) args (.cases (pairUp args).1 (pairUp args).2) := by
  obtain ⟨htext, hheight⟩ := pairUp_eq args
  refine ⟨?_, by rw [Expr.height, hheight]⟩
  obtain _ | ⟨c, _ | ⟨v, _ | ⟨d, _ | ⟨w, rest⟩⟩⟩⟩ := args
  · cases hargs
  · exact absurd hargs (by simp)
  · rfl
  · rfl
  · rw [← htext]
    simp only [pairUp, Expr.text]
    rfl

theorem callForm_cases (hargs : 2 ≤ args.length) :
    callForm (casesName args) args = .ok (.cases (pairUp args).1 (pairUp args).2) := by
  unfold casesName
  split
  · next h =>
    match args, h with
    | [c, v, e], _ => rfl
  · unfold callForm
    rw [if_neg (by decide), if_pos rfl, if_neg (Nat.not_lt.2 hargs)]

/-- **A form prints as a call** of all its arguments, and the call means the form. -/
theorem printsAs_callForm {name : String} (hf : callForm name args = .ok e) :
    ∃ name', (name' = name ∨ name' = "if") ∧ PrintsAs name' args e ∧
      callForm name' args = .ok e := by
  have hsame := hf
  unfold callForm at hf
  split at hf
  · next hname =>
    subst hname
    split at hf
    · next c a b =>
      cases hf
      exact ⟨"if", .inl rfl, printsAs_cases [c, a, b] (Nat.le_succ 2), rfl⟩
    · cases hf
  split at hf
  · next hname =>
    split at hf
    · cases hf
    · next hargs =>
      cases hf
      refine ⟨casesName args, ?_, printsAs_cases args (Nat.not_lt.1 hargs), ?_⟩
      · unfold casesName
        split
        · exact .inr rfl
        · exact .inl hname.symm
      · exact callForm_cases (Nat.not_lt.1 hargs)
  split at hf
  · next kind hkind =>
    have hname := name_of_ofName? hkind
    exact ⟨kind.name, .inl hname, printsAs_loopForm hf, hname ▸ hsame⟩
  · cases hf
    exact ⟨name, .inl rfl, printsAs_call _ _, hsame⟩

/-- **A literal in brackets** prints as its rows. -/
theorem text_literalOf {rows : List (List Expr)} (hf : literalOf rows = .ok e) :
    e.text = "[" ++ "; ".intercalate (rows.map fun row => ", ".intercalate (row.map Expr.text)) ++ "]" ∧
      ∀ row ∈ rows, heightBelow row ≤ e.height := by
  unfold literalOf at hf
  split at hf
  · cases hf
    exact ⟨rfl, nofun⟩
  · next items =>
    cases hf
    refine ⟨?_, fun row hrow => ?_⟩
    · rw [Expr.text, texts_eq_map, List.map_singleton, String.intercalate_singleton]
    · rw [List.mem_singleton.1 hrow, Expr.height]
  · dsimp only at hf
    split at hf
    · cases hf
    · cases hf
      refine ⟨by rw [Expr.text, rowTexts_eq_map], fun row hrow => ?_⟩
      rw [Expr.height]
      exact heightBelow_le_heightRows hrow

end Forms

/-! ## What begins with a name -/

section Names

variable {e i : Expr} {name : String} {ts us vs : List Token} {limit n : Nat} {deeper : Deeper}

/-- A name and what is behind it. -/
theorem takes_name (h : ∀ x, Takes (nameLike limit deeper name x) ts e us) :
    Takes (primary limit deeper) (.name name :: ts) e us := by
  refine takes_get fun c hc => ?_
  rw [hc.current]
  exact takes_advance.bind (h _)

/-- A name that is neither assigned nor called nor indexed. -/
theorem takes_var (h : apart (front us)) :
    Takes (primary limit deeper) (.name name :: us) (.var name) us := by
  refine takes_name fun x => takes_get fun c hc => ?_
  rw [hc.current]
  split
  · next hassign => rw [hassign] at h; cases h
  · next hbracket => rw [hbracket] at h; cases h
  · next hparen => rw [hparen] at h; cases h
  · exact takes_pure

theorem Readable.var (hn : IsName name) : Readable (.var name) :=
  .of_operand [.name name] (written_name hn) ⟨rfl, rfl, fun _ hapart => takes_var hapart⟩

theorem delimited_assign : Delimited " = " [.mark .assign] := delimited_spaced .assign

theorem breaking_assign : Breaking " = " := ⟨' ', ['=', ' '], rfl, rfl⟩

/-- An index in brackets behind a name. -/
theorem takes_index {x : Text.Extent} (hi : AsWhole us i) (hn : 2 * i.height ≤ n)
    (hrest : Takes (do
      if ← at? .assign then
        advance
        return .assignElement name i (← descend limit (below limit (n + 1)) .expression)
      else
        return .element name i) ts e vs) :
    Takes (nameLike limit (below limit (n + 1)) name x)
      (.mark .leftBracket :: (us ++ .mark .rightBracket :: ts)) e vs := by
  refine takes_get fun c hc => ?_
  rw [hc.current]
  exact takes_advance.bind ((takes_descend (hi.takes hn rfl)).bind (takes_expect.bind hrest))

/-- **An assignment** takes all that follows. -/
theorem Readable.assign (hn : IsName name) (he : Readable e) : Readable (.assign name e) := by
  obtain ⟨ts, hw, hp⟩ := he.whole
  refine .of_primary ([Token.name name] ++ [Token.mark .assign] ++ ts) rfl ?_ rfl rfl
    fun {limit n us} hn hclose => ?_
  · rw [text]
    exact ((written_name hn).append_delimited delimited_assign breaking_assign).append_written hw
  rw [height] at hn
  obtain ⟨n, rfl⟩ := Nat.exists_eq_add_one_of_ne_zero (n := n) (by omega)
  refine takes_name fun x => takes_get fun c hc => ?_
  rw [hc.current]
  exact takes_advance.bind ((takes_descend (hp.takes (by omega) hclose)).bind takes_pure)

/-- **An element** of a name. -/
theorem Readable.element (hn : IsName name) (hi : Readable i) : Readable (.element name i) := by
  obtain ⟨ts, hw, hp⟩ := hi.whole
  refine .of_operand ([Token.name name] ++ [Token.mark .leftBracket] ++ ts ++
    [Token.mark .rightBracket]) ?_ ⟨rfl, rfl, fun {limit n us} hn hapart => ?_⟩
  · rw [text]
    exact (((written_name hn).append_delimited delimited_leftBracket
      breaking_leftBracket).append_written hw).append delimited_rightBracket.written
      breaking_rightBracket
  rw [height] at hn
  obtain ⟨n, rfl⟩ := Nat.exists_eq_add_one_of_ne_zero (n := n) (by omega)
  simp only [List.append_assoc, List.cons_append, List.nil_append]
  refine takes_name fun x => takes_index hp (by omega) (takes_at?.bind ?_)
  rw [isMark_of_apart hapart]
  exact takes_pure

/-- **An assignment to an element** takes all that follows. -/
theorem Readable.assignElement (hn : IsName name) (hi : Readable i) (he : Readable e) :
    Readable (.assignElement name i e) := by
  obtain ⟨ts, hwi, hpi⟩ := hi.whole
  obtain ⟨us, hwe, hpe⟩ := he.whole
  refine .of_primary ([Token.name name] ++ [Token.mark .leftBracket] ++ ts ++
    ([Token.mark .rightBracket] ++ [Token.mark .assign]) ++ us) rfl ?_ rfl rfl
    fun {limit n vs} hn hclose => ?_
  · rw [text]
    exact ((((written_name hn).append_delimited delimited_leftBracket
      breaking_leftBracket).append_written hwi).append_delimited
      (delimited_rightBracket.append delimited_assign)
      (breaking_rightBracket.append _)).append_written hwe
  rw [height] at hn
  obtain ⟨n, rfl⟩ := Nat.exists_eq_add_one_of_ne_zero (n := n) (by omega)
  simp only [List.append_assoc, List.cons_append, List.nil_append]
  refine takes_name fun x => takes_index hpi (by omega) (takes_at?.bind (takes_advance.bind ?_))
  exact (takes_descend (hpe.takes (by omega) hclose)).bind takes_pure

end Names

/-! ## Calls and definitions -/

section Calls

variable {args : List Expr} {e body : Expr} {name : String} {ts us vs : List Token} {limit n : Nat}
  {f : Expr → List Token}

/-- Tokens for each of some trees. -/
theorem exists_tokens (hargs : ∀ a ∈ args, Readable a) :
    ∃ f : Expr → List Token, ∀ a ∈ args, Written a.text (f a) ∧ AsWhole (f a) a := by
  choose! f hf using fun a ha => (hargs a ha).whole
  exact ⟨f, hf⟩

theorem delimited_comma : Delimited ", " [.mark .comma] :=
  (delimited_single (a := ",") (c := ',') rfl ⟨rfl, by decide⟩ rfl).blank

theorem breaking_comma : Breaking ", " := ⟨',', [' '], rfl, rfl⟩

/-- Items between commas. -/
theorem written_items (hf : ∀ a ∈ args, Written a.text (f a) ∧ AsWhole (f a) a) :
    Written (", ".intercalate (args.map Expr.text)) (between .comma (args.map f)) :=
  written_intercalate delimited_comma breaking_comma fun a ha => (hf a ha).1

/-- No item begins with a closing mark. -/
theorem closes_items (hargs : args ≠ []) (hf : ∀ a ∈ args, AsWhole (f a) a) :
    closes (front (between .comma (args.map f))) = false := by
  match args, hargs with
  | a :: rest, _ => exact closes_between (hf a List.mem_cons_self).begins _

/-- Items between commas, up to a closing mark. -/
theorem takes_items (hargs : args ≠ []) (hf : ∀ a ∈ args, AsWhole (f a) a)
    (hn : ∀ a ∈ args, 2 * a.height < n) {close : Mark} (hclose : closes (.mark close))
    (hcomma : close ≠ .comma) (what : String) (us : List Token) :
    Takes (itemsUntil (descend limit (below limit n) .expression) close what
        ((between .comma (args.map f) ++ .mark close :: us).tail.length + 1))
      (between .comma (args.map f) ++ .mark close :: us) (some args) us := by
  have hitem : ∀ a ∈ args, ∀ us, closes (front us) →
      Takes (descend limit (below limit n) .expression) (f a ++ us) a us := by
    intro a ha us hus
    have hlt := hn a ha
    obtain ⟨n, rfl⟩ := Nat.exists_eq_add_one_of_ne_zero (n := n) (by omega)
    exact takes_descend ((hf a ha).takes (by omega) hus)
  refine takes_itemsUntil hargs hitem hclose hcomma what ?_
  have hlength := length_le_between .comma (args.map f)
  rw [List.length_map] at hlength
  rw [List.length_tail, List.length_append, List.length_cons]
  omega

/-- The arguments of a call or definition, up to the closing parenthesis. -/
theorem takes_callLike {x : Text.Extent} (hf : ∀ a ∈ args, AsWhole (f a) a)
    (hn : ∀ a ∈ args, 2 * a.height < n)
    (hrest : Takes (do
      if ← at? .assign then
        advance
        let body ← descend limit (below limit n) .expression
        orFail x (defineForm name args body)
      else
        orFail x (callForm name args)) us e vs) :
    Takes (callLike limit (below limit n) name x)
      (between .comma (args.map f) ++ .mark .rightParen :: us) e vs := by
  unfold callLike
  refine takes_at?.bind ?_
  by_cases hargs : args = []
  · subst hargs
    exact takes_advance.bind hrest
  · have hclose := closes_items hargs hf
    rw [front_append hclose, isMark_front hclose rfl]
    exact takes_itemBound.bind ((takes_items hargs hf hn rfl (by decide) _ us).bind hrest)

/-- **A call** or a special form. -/
theorem Readable.callForm (hn : IsName name) (hargs : ∀ a ∈ args, Readable a)
    (h : callForm name args = .ok e) : Readable e := by
  obtain ⟨name', hname, hprints, hform⟩ := printsAs_callForm h
  have hn' : IsName name' := by
    rcases hname with rfl | rfl
    · exact hn
    · exact ⟨⟨'i', ['f'], rfl, rfl, List.all_eq_true.1 rfl⟩, rfl⟩
  obtain ⟨f, hf⟩ := exists_tokens hargs
  refine .of_operand ([Token.name name'] ++ [Token.mark .leftParen] ++
    between .comma (args.map f) ++ [Token.mark .rightParen]) ?_
      ⟨rfl, rfl, fun {limit n us} hn hapart => ?_⟩
  · rw [hprints.text]
    exact (((written_name hn').append_delimited delimited_leftParen
      breaking_leftParen).append_written (written_items hf)).append delimited_rightParen.written
      breaking_rightParen
  simp only [List.append_assoc, List.cons_append, List.nil_append]
  refine takes_name fun x => takes_get fun c hc => ?_
  rw [hc.current]
  refine takes_advance.bind
    (takes_callLike (fun a ha => (hf a ha).2) (fun a ha => ?_) (takes_at?.bind ?_))
  · have := height_lt_heightBelow ha
    have := hprints.height
    omega
  · rw [isMark_of_apart hapart, hform]
    exact takes_pure

theorem mapM_plainName? {params : List String} (h : args.mapM plainName? = some params) :
    args = params.map .var := by
  induction args generalizing params with
  | nil =>
    rw [List.mapM_nil] at h
    cases h
    rfl
  | cons a args ih =>
    rw [List.mapM_cons] at h
    obtain ⟨p, hp, h⟩ := Option.bind_eq_some_iff.1 h
    obtain ⟨ps, hps, h⟩ := Option.bind_eq_some_iff.1 h
    cases h
    have ha : a = .var p := by
      unfold plainName? at hp
      split at hp <;> cases hp
      rfl
    rw [ha, ih hps, List.map_cons]

/-- **A definition** takes all that follows. -/
theorem Readable.defineForm (hn : IsName name) (hargs : ∀ a ∈ args, Readable a)
    (hbody : Readable body) (h : defineForm name args body = .ok e) : Readable e := by
  have hform := h
  unfold Parser.defineForm at h
  split at h
  · next params hparams =>
    cases h
    have hvars := mapM_plainName? hparams
    obtain ⟨f, hf⟩ := exists_tokens hargs
    obtain ⟨us, hwb, hpb⟩ := hbody.whole
    refine .of_primary ([Token.name name] ++ [Token.mark .leftParen] ++
      between .comma (args.map f) ++ ([Token.mark .rightParen] ++ [Token.mark .assign]) ++ us) rfl ?_
      rfl rfl fun {limit n vs} hn hclose => ?_
    · have htext : params = args.map Expr.text := by
        rw [hvars, List.map_map]
        exact (List.map_id params).symm
      rw [text, htext]
      exact ((((written_name hn).append_delimited delimited_leftParen
        breaking_leftParen).append_written (written_items hf)).append_delimited
        (delimited_rightParen.append delimited_assign)
        (breaking_rightParen.append _)).append_written hwb
    rw [height] at hn
    simp only [List.append_assoc, List.cons_append, List.nil_append]
    refine takes_name fun x => takes_get fun c hc => ?_
    rw [hc.current]
    refine takes_advance.bind (takes_callLike (fun a ha => (hf a ha).2) (fun a ha => ?_)
      (takes_at?.bind (takes_advance.bind ?_)))
    · rw [hvars] at ha
      obtain ⟨p, -, rfl⟩ := List.mem_map.1 ha
      rw [height]
      omega
    · obtain ⟨n, rfl⟩ := Nat.exists_eq_add_one_of_ne_zero (n := n) (by omega)
      refine (takes_descend (hpb.takes (by omega) hclose)).bind ?_
      rw [hform]
      exact takes_pure
  · cases h

end Calls

/-! ## Literals -/

section Literals

variable {rows : List (List Expr)} {items : List Expr} {e : Expr}

theorem delimited_semicolon : Delimited "; " [.mark .semicolon] :=
  (delimited_single (a := ";") (c := ';') rfl ⟨rfl, by decide⟩ rfl).blank

theorem breaking_semicolon : Breaking "; " := ⟨';', [' '], rfl, rfl⟩

theorem length_flatten_le (rows : List (List Expr)) (f : Expr → List Token) :
    rows.flatten.length ≤
      (between .semicolon (rows.map fun row => between .comma (row.map f))).length + 1 := by
  induction rows with
  | nil => exact Nat.zero_le _
  | cons row rows ih =>
    have hrow := length_le_between .comma (row.map f)
    rw [List.length_map] at hrow
    cases rows with
    | nil => simpa using hrow
    | cons row' rows =>
      simp only [List.map_cons, between_cons_cons, List.flatten_cons, List.length_append,
        List.length_cons] at ih ⊢
      omega

/-- Rows of expressions in brackets. -/
theorem AsWhole.literalOf {f : Expr → List Token} (hne : ∀ row ∈ rows, row ≠ [])
    (hf : ∀ row ∈ rows, ∀ a ∈ row, AsWhole (f a) a) (h : literalOf rows = .ok e) :
    AsOperand (2 * e.height) ([Token.mark .leftBracket] ++
      between .semicolon (rows.map fun row => between .comma (row.map f)) ++
        [Token.mark .rightBracket]) e := by
  refine ⟨rfl, rfl, fun {limit n us} hn _ => ?_⟩
  simp only [List.append_assoc, List.cons_append, List.nil_append]
  refine takes_get fun c hc => ?_
  rw [hc.current]
  refine takes_advance.bind (takes_at?.bind ?_)
  by_cases hnil : rows = []
  · subst hnil
    cases h
    exact takes_advance.bind takes_pure
  have hclose : closes (front
      (between .semicolon (rows.map fun row => between .comma (row.map f)))) = false := by
    match rows, hnil, hne, hf with
    | row :: rest, _, hne, hf =>
      have hrow := List.mem_cons_self (a := row) (l := rest)
      exact closes_between (closes_items (hne row hrow) (hf row hrow)) _
  have hitem : ∀ row ∈ rows, ∀ a ∈ row, ∀ us, closes (front us) →
      Takes (descend limit (below limit n) .expression) (f a ++ us) a us := by
    intro row hrow a ha us hus
    have hlt := height_lt_heightBelow ha
    have hle := (text_literalOf h).2 row hrow
    obtain ⟨n, rfl⟩ := Nat.exists_eq_add_one_of_ne_zero (n := n) (by omega)
    exact takes_descend ((hf row hrow a ha).takes (by omega) hus)
  rw [front_append hclose, isMark_front hclose rfl]
  refine takes_itemBound.bind ((takes_rowsUntil hnil hne hitem ?_).bind ?_)
  · have hlength := length_flatten_le rows f
    rw [List.length_tail, List.length_append, List.length_cons]
    omega
  · show Takes (orFail c.extent (Parser.literalOf rows)) us e us
    rw [h]
    exact takes_pure

/-- Pieces of a text in brackets. -/
theorem written_brackets {text : String} {ts : List Token} (h : Written text ts) :
    Written ("[" ++ text ++ "]") ([Token.mark .leftBracket] ++ ts ++ [Token.mark .rightBracket]) :=
  (delimited_leftBracket.append_written h).append delimited_rightBracket.written
    breaking_rightBracket

/-- **A literal in brackets.** -/
theorem Readable.literalOf (hne : ∀ row ∈ rows, row ≠ [])
    (hrows : ∀ row ∈ rows, ∀ e ∈ row, Readable e) (h : literalOf rows = .ok e) : Readable e := by
  have hitems : ∀ a ∈ rows.flatten, Readable a := fun a ha =>
    let ⟨row, hrow, ha⟩ := List.mem_flatten.1 ha
    hrows row hrow a ha
  obtain ⟨f, hf⟩ := exists_tokens hitems
  replace hf : ∀ row ∈ rows, ∀ a ∈ row, Written a.text (f a) ∧ AsWhole (f a) a :=
    fun row hrow a ha => hf a (List.mem_flatten.2 ⟨row, hrow, ha⟩)
  have hwritten : Written ("; ".intercalate (rows.map fun row => ", ".intercalate (row.map Expr.text)))
      (between .semicolon (rows.map fun row => between .comma (row.map f))) :=
    written_intercalate delimited_semicolon breaking_semicolon fun row hrow =>
      written_items (hf row hrow)
  refine .of_operand _ ?_ (AsWhole.literalOf hne (fun row hrow a ha => (hf row hrow a ha).2) h)
  rw [(text_literalOf h).1]
  exact written_brackets hwritten

theorem delimited_leftBrace : Delimited "\x7b" [.mark .leftBrace] :=
  delimited_single (c := '\x7b') rfl ⟨rfl, by decide⟩ rfl

theorem delimited_rightBrace : Delimited "\x7d" [.mark .rightBrace] :=
  delimited_single (c := '\x7d') rfl ⟨rfl, by decide⟩ rfl

theorem breaking_rightBrace : Breaking "\x7d" := ⟨'\x7d', [], rfl, rfl⟩

/-- **A list in braces.** -/
theorem Readable.list (hitems : ∀ e ∈ items, Readable e) : Readable (.list items) := by
  obtain ⟨f, hf⟩ := exists_tokens hitems
  refine .of_operand ([Token.mark .leftBrace] ++ between .comma (items.map f) ++
    [Token.mark .rightBrace]) ?_ ⟨rfl, rfl, fun {limit n us} hn _ => ?_⟩
  · rw [text, texts_eq_map]
    exact (delimited_leftBrace.append_written (written_items hf)).append
      delimited_rightBrace.written breaking_rightBrace
  simp only [List.append_assoc, List.cons_append, List.nil_append]
  refine takes_get fun c hc => ?_
  rw [hc.current]
  refine takes_advance.bind (takes_at?.bind ?_)
  by_cases hnil : items = []
  · subst hnil
    exact takes_advance.bind takes_pure
  have hclose := closes_items hnil fun a ha => (hf a ha).2
  rw [front_append hclose, isMark_front hclose rfl]
  refine takes_itemBound.bind ((takes_items hnil (fun a ha => (hf a ha).2) (fun a ha => ?_) rfl
    (by decide) _ us).bind takes_pure)
  have hlt := height_lt_heightBelow ha
  rw [height] at hn
  omega

end Literals

end Parser

end FormulaLang
