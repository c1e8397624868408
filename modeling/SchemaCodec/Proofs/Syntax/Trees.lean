import SchemaCodec.Proofs.Syntax.PhraseReader
import SchemaCodec.Syntax.Outline

/-!
# Trees of phrases

A phrase has one tree in which nothing stands but what the grammar knows: no trivia, and of a token
only its terminal. The tree of a text is bare in this way once the trivia are left out. An outline
takes no notice of what is left out, so a text whose bare tree is that of a phrase has the outline
of the phrase, and that is the module which the phrase means.
-/

namespace SchemaCodec.Syntax

open Grammar (Body)

/-! ## Bare trees -/

/-- A token that is nothing but its terminal. -/
def Terminal.token : Terminal → Token
  | name text => ⟨.id, 0, text⟩
  | symbol kind => ⟨kind, 0, ""⟩

def Terminal.kind (terminal : Terminal) : Kind := terminal.token.kind

/-- A tree of one terminal. -/
def Terminal.leaf (terminal : Terminal) : Tree := .token terminal.token

namespace Token

variable {t : Token}

@[simp] theorem kind_terminal (t : Token) : t.terminal.kind = t.kind := by
  rw [terminal]
  split
  · next hid => exact hid.symm
  · rfl

theorem text_terminal_token (h : t.kind = .id) : t.terminal.token.text = t.text := by
  rw [terminal, if_pos h]
  rfl

end Token

namespace Tree

mutual

/-- A tree without the trivia in it, of whose tokens only the terminals are left. Nothing is left of
a token that is trivia itself. -/
def bare? : Tree → Option Tree
  | token t => if t.kind.isTrivia then none else some t.terminal.leaf
  | node kind children => some (node kind (bareForest children))

def bareForest : List Tree → List Tree
  | [] => []
  | tree :: rest => (bare? tree).toList ++ bareForest rest

end

theorem bareForest_eq (trees : List Tree) : bareForest trees = trees.filterMap bare? := by
  induction trees with
  | nil => rfl
  | cons tree trees ih =>
    rw [bareForest, ih, List.filterMap_cons]
    cases bare? tree <;> rfl

theorem bareForest_trivia {t : Token} (h : t.kind.isTrivia = true) (rest : List Tree) :
    bareForest (token t :: rest) = bareForest rest := by
  rw [bareForest, bare?, if_pos h]
  rfl

theorem bareForest_token {t : Token} (h : ¬t.kind.isTrivia = true) (rest : List Tree) :
    bareForest (token t :: rest) = t.terminal.leaf :: bareForest rest := by
  rw [bareForest, bare?, if_neg h]
  rfl

theorem bareForest_node (kind : Kind) (children rest : List Tree) :
    bareForest (node kind children :: rest) = node kind (bareForest children) :: bareForest rest :=
  rfl

theorem bareForest_append (trees others : List Tree) :
    bareForest (trees ++ others) = bareForest trees ++ bareForest others := by
  rw [bareForest_eq, bareForest_eq, bareForest_eq, List.filterMap_append]

theorem bareForest_reverse (trees : List Tree) :
    bareForest trees.reverse = (bareForest trees).reverse := by
  rw [bareForest_eq, bareForest_eq, List.filterMap_reverse]

/-! ## Outlines of bare trees -/

theorem names_bareForest (trees : List Tree) : names (bareForest trees) = names trees := by
  rw [names, names]
  induction trees with
  | nil => rfl
  | cons tree trees ih =>
    cases tree with
    | token t =>
      by_cases htrivia : t.kind.isTrivia = true
      · have hne : t.kind ≠ .id := by
          intro hid
          rw [hid] at htrivia
          cases htrivia
        rw [bareForest_trivia htrivia, tokenTexts, if_neg hne, ih]
      · rw [bareForest_token htrivia, Terminal.leaf, tokenTexts, tokenTexts,
          ← Terminal.kind, Token.kind_terminal, ih]
        split
        · next hid => rw [Token.text_terminal_token hid]
        · rfl
    | node kind children => rw [bareForest_node, tokenTexts, tokenTexts, ih]

/-- Whether there is a dot shows in a bare tree. -/
theorem isEmpty_dots_bareForest (trees : List Tree) :
    (tokenTexts .dot (bareForest trees)).isEmpty = (tokenTexts .dot trees).isEmpty := by
  induction trees with
  | nil => rfl
  | cons tree trees ih =>
    cases tree with
    | token t =>
      by_cases htrivia : t.kind.isTrivia = true
      · have hne : t.kind ≠ .dot := by
          intro hdot
          rw [hdot] at htrivia
          cases htrivia
        rw [bareForest_trivia htrivia, tokenTexts, if_neg hne, ih]
      · rw [bareForest_token htrivia, Terminal.leaf, tokenTexts, tokenTexts,
          ← Terminal.kind, Token.kind_terminal]
        split
        · rfl
        · exact ih
    | node kind children => rw [bareForest_node, tokenTexts, tokenTexts, ih]

theorem nodeOf?_bareForest (kind : Kind) (trees : List Tree) :
    nodeOf? kind (bareForest trees) = (nodeOf? kind trees).map bareForest := by
  induction trees with
  | nil => rfl
  | cons tree trees ih =>
    cases tree with
    | token t =>
      by_cases htrivia : t.kind.isTrivia = true
      · rw [bareForest_trivia htrivia, nodeOf?, ih]
      · rw [bareForest_token htrivia, Terminal.leaf, nodeOf?, nodeOf?, ih]
    | node k children =>
      rw [bareForest_node, nodeOf?, nodeOf?]
      split
      · rfl
      · exact ih

/-- What takes no notice of tokens takes no notice of what becomes of them. -/
theorem of_bareForest_token {β : Type} {f : List Tree → β}
    (hf : ∀ t rest, f (token t :: rest) = f rest) (t : Token) (rest : List Tree) :
    f (bareForest (token t :: rest)) = f (bareForest rest) := by
  by_cases htrivia : t.kind.isTrivia = true
  · rw [bareForest_trivia htrivia]
  · rw [bareForest_token htrivia, Terminal.leaf, hf]

mutual

theorem typeOutline?_bareForest (kind : Kind) : (children : List Tree) →
    typeOutline? (node kind (bareForest children)) = typeOutline? (node kind children)
  | children => by
    have hentries := entryOutlines_bareForest children
    have hargs := argOutlines?_bareForest children
    cases kind with
    | record => exact congrArg (some ∘ TypeOutline.record) hentries
    | choice => exact congrArg (some ∘ TypeOutline.choice) hentries
    | ref => rw [typeOutline?, typeOutline?, names_bareForest, isEmpty_dots_bareForest, hargs]
    | _ => rfl

theorem firstType?_bareForest : (trees : List Tree) →
    firstType? (bareForest trees) = firstType? trees
  | [] => rfl
  | token t :: rest => by
    rw [of_bareForest_token (f := firstType?) (fun _ _ ↦ rfl)]
    exact firstType?_bareForest rest
  | node kind children :: rest => by
    rw [bareForest_node, firstType?, firstType?, typeOutline?_bareForest kind children,
      firstType?_bareForest rest]

theorem typeOutlines_bareForest : (trees : List Tree) →
    typeOutlines (bareForest trees) = typeOutlines trees
  | [] => rfl
  | token t :: rest => by
    rw [of_bareForest_token (f := typeOutlines) (fun _ _ ↦ rfl)]
    exact typeOutlines_bareForest rest
  | node kind children :: rest => by
    rw [bareForest_node, typeOutlines, typeOutlines, typeOutline?_bareForest kind children,
      typeOutlines_bareForest rest]

theorem entryOutlines_bareForest : (trees : List Tree) →
    entryOutlines (bareForest trees) = entryOutlines trees
  | [] => rfl
  | token t :: rest => by
    rw [of_bareForest_token (f := entryOutlines) (fun _ _ ↦ rfl)]
    exact entryOutlines_bareForest rest
  | node kind children :: rest => by
    have hrest := entryOutlines_bareForest rest
    have hfirst := firstType?_bareForest children
    rw [bareForest_node]
    cases kind with
    | entry =>
      change ((names (bareForest children))[0]?, firstType? (bareForest children)) ::
        entryOutlines (bareForest rest) = ((names children)[0]?, firstType? children) ::
          entryOutlines rest
      rw [names_bareForest, hfirst, hrest]
    | _ => exact hrest

theorem argOutlines?_bareForest : (trees : List Tree) →
    argOutlines? (bareForest trees) = argOutlines? trees
  | [] => rfl
  | token t :: rest => by
    rw [of_bareForest_token (f := argOutlines?) (fun _ _ ↦ rfl)]
    exact argOutlines?_bareForest rest
  | node kind children :: rest => by
    have hrest := argOutlines?_bareForest rest
    have htypes := typeOutlines_bareForest children
    rw [bareForest_node]
    cases kind with
    | args => exact congrArg some htypes
    | _ => exact hrest

end

theorem declOutlines_bareForest (trees : List Tree) :
    declOutlines (bareForest trees) = declOutlines trees := by
  induction trees with
  | nil => rfl
  | cons tree trees ih =>
    cases tree with
    | token t => rw [of_bareForest_token (f := declOutlines) (fun _ _ ↦ rfl), ih]; rfl
    | node kind children =>
      rw [bareForest_node]
      cases kind with
      | decl =>
        change (⟨(names (bareForest children))[0]?,
          (nodeOf? .params (bareForest children)).map names, firstType? (bareForest children)⟩ :
            DeclOutline) :: declOutlines (bareForest trees)
          = ⟨(names children)[0]?, (nodeOf? .params children).map names, firstType? children⟩ ::
            declOutlines trees
        have hnames : names ∘ bareForest = names := funext names_bareForest
        rw [names_bareForest, firstType?_bareForest, ih, nodeOf?_bareForest, Option.map_map, hnames]
      | _ => exact ih

/-- An outline takes no notice of what is not left in a bare tree. -/
theorem outline_bareForest (kind : Kind) (children : List Tree) :
    (node kind (bareForest children)).outline = (node kind children).outline := by
  have hheader : ((fun children ↦ (names children)[0]?) ∘ bareForest)
      = fun children ↦ (names children)[0]? := by
    funext children
    rw [Function.comp_apply, names_bareForest]
  rw [outline, outline, Tree.children, Tree.children, nodeOf?_bareForest, Option.map_map, hheader,
    declOutlines_bareForest]

end Tree

/-! ## Trees of phrases -/

/-- Trees with commas between them. -/
def separatedTrees (trees : List Tree) : List Tree :=
  trees.intersperse (Terminal.leaf (.symbol .comma))

/-- Trees between parentheses with commas between them, as a node of a kind; nothing if there are no
trees. -/
def parenthesizedTree (kind : Kind) (trees : List Tree) : List Tree :=
  if trees.isEmpty then []
  else [.node kind (Terminal.leaf (.symbol .parenOpen) ::
    (separatedTrees trees ++ [Terminal.leaf (.symbol .parenClose)]))]

namespace TypePhrase

mutual

/-- The bare tree of a type. -/
def tree : TypePhrase → Tree
  | braced form entries =>
    .node form.kind (Terminal.leaf (.symbol form.keyword) :: Terminal.leaf (.symbol .braceOpen) ::
      (entriesTrees entries ++ [Terminal.leaf (.symbol .braceClose)]))
  | ref qualifier name args =>
    .node .ref ((qualified qualifier name).map Terminal.leaf ++
      parenthesizedTree .args (trees args))

def entriesTrees : List (String × TypePhrase × Bool) → List Tree
  | [] => []
  | (name, ty, comma) :: rest =>
    .node .entry [Terminal.leaf (.name name), Terminal.leaf (.symbol .colon), tree ty] ::
      ((if comma then [Terminal.leaf (.symbol .comma)] else []) ++ entriesTrees rest)

def trees : List TypePhrase → List Tree
  | [] => []
  | ty :: rest => tree ty :: trees rest

end

theorem trees_eq (args : List TypePhrase) : trees args = args.map tree := by
  induction args with
  | nil => rfl
  | cons ty args ih => rw [trees, ih, List.map_cons]

mutual

/-- The outline of a type. -/
def outline : TypePhrase → TypeOutline
  | braced .record entries => .record (entriesOutlines entries)
  | braced .choice entries => .choice (entriesOutlines entries)
  | ref qualifier name args =>
    .ref qualifier (some name) (if args.isEmpty then none else some (outlines args))

def entriesOutlines : List (String × TypePhrase × Bool) →
    List (Option String × Option TypeOutline)
  | [] => []
  | (name, ty, _) :: rest => (some name, some (outline ty)) :: entriesOutlines rest

def outlines : List TypePhrase → List TypeOutline
  | [] => []
  | ty :: rest => outline ty :: outlines rest

end

end TypePhrase

def DeclPhrase.tree (phrase : DeclPhrase) : Tree :=
  .node .decl (Terminal.leaf (.name phrase.name) ::
    (parenthesizedTree .params (phrase.params.map fun param ↦ Terminal.leaf (.name param)) ++
      [Terminal.leaf (.symbol .equals), phrase.body.tree]))

/-- The bare trees of the parts of a whole text. -/
def ModulePhrase.trees (phrase : ModulePhrase) : List Tree :=
  .node .moduleHeader [Terminal.leaf (.symbol .kwModule), Terminal.leaf (.name phrase.name)] ::
    phrase.decls.map DeclPhrase.tree

/-! ## Outlines of phrases -/

namespace TypePhrase

open SchemaCodec.Syntax.Tree

/-- Commas and parentheses are no types. -/
theorem typeOutlines_separated (trees : List Tree) :
    typeOutlines (separatedTrees trees ++ [Terminal.leaf (.symbol .parenClose)])
      = typeOutlines trees := by
  rw [separatedTrees]
  induction trees with
  | nil => rfl
  | cons tree trees ih =>
    cases trees with
    | nil => cases tree <;> rfl
    | cons next trees =>
      rw [List.intersperse_cons_cons]
      cases tree with
      | token t => exact ih
      | node kind children => exact congrArg ((typeOutline? (.node kind children)).toList ++ ·) ih

mutual

theorem typeOutline?_tree : (ty : TypePhrase) → typeOutline? ty.tree = some ty.outline
  | braced form entries => by
    have hentries : entryOutlines (Terminal.leaf (.symbol form.keyword) ::
        Terminal.leaf (.symbol .braceOpen) ::
          (entriesTrees entries ++ [Terminal.leaf (.symbol .braceClose)]))
        = entriesOutlines entries :=
      entryOutlines_entriesTrees entries
    cases form with
    | record => exact congrArg (some ∘ TypeOutline.record) hentries
    | choice => exact congrArg (some ∘ TypeOutline.choice) hentries
  | ref qualifier name args => by
    have hargs := (typeOutlines_separated (trees args)).trans (typeOutlines_trees args)
    have houtlines : argOutlines? ((qualified qualifier name).map Terminal.leaf ++
        parenthesizedTree .args (trees args))
        = if args.isEmpty then none else some (outlines args) := by
      cases args with
      | nil => cases qualifier <;> rfl
      | cons arg args => cases qualifier <;> exact congrArg some hargs
    rw [tree, typeOutline?, houtlines, outline]
    -- what is in parentheses is one node, so it adds no names and no dots
    cases args with
    | nil => cases qualifier <;> rfl
    | cons arg args => cases qualifier <;> rfl

theorem entryOutlines_entriesTrees : (entries : List (String × TypePhrase × Bool)) →
    entryOutlines (entriesTrees entries ++ [Terminal.leaf (.symbol .braceClose)])
      = entriesOutlines entries
  | [] => rfl
  | (name, ty, comma) :: rest => by
    have hty := typeOutline?_tree ty
    have hrest := entryOutlines_entriesTrees rest
    have hfirst : firstType? [Terminal.leaf (.name name), Terminal.leaf (.symbol .colon), ty.tree]
        = some ty.outline := by
      change (typeOutline? ty.tree).or none = some ty.outline
      rw [hty]
      rfl
    have hentry : entryOutlines (entriesTrees ((name, ty, comma) :: rest) ++
        [Terminal.leaf (.symbol .braceClose)])
        = (some name, firstType?
            [Terminal.leaf (.name name), Terminal.leaf (.symbol .colon), ty.tree]) ::
          entryOutlines (entriesTrees rest ++ [Terminal.leaf (.symbol .braceClose)]) := by
      cases comma <;> rfl
    rw [hentry, hfirst, hrest]
    rfl

theorem typeOutlines_trees : (args : List TypePhrase) →
    typeOutlines (trees args) = outlines args
  | [] => rfl
  | ty :: rest => by
    have hty := typeOutline?_tree ty
    have hrest := typeOutlines_trees rest
    change (typeOutline? ty.tree).toList ++ typeOutlines (trees rest) = _
    rw [hty, hrest]
    rfl

end

mutual

theorem expr?_outline : (ty : TypePhrase) → ty.outline.expr? = some ty.expr
  | braced form entries => by
    have hentries := entryExprs?_outlines entries
    cases form with
    | record => rw [outline, TypeOutline.expr?, hentries]; rfl
    | choice => rw [outline, TypeOutline.expr?, hentries]; rfl
  | ref qualifier name args => by
    have hargs := argExprs?_outlines args
    rw [outline]
    cases args with
    | nil => rfl
    | cons arg args =>
      rw [if_neg (by simp), TypeOutline.expr?]
      exact congrArg (fun exprs ↦ exprs.bind fun exprs ↦
        some (TypeExpr.ref ⟨qualifier, name⟩ exprs)) hargs

theorem entryExprs?_outlines : (entries : List (String × TypePhrase × Bool)) →
    TypeOutline.entryExprs? (entriesOutlines entries) = some (entriesExprs entries)
  | [] => rfl
  | (name, ty, comma) :: rest => by
    rw [entriesOutlines, TypeOutline.entryExprs?, Phrase.bind_of_some (expr?_outline ty),
      Phrase.bind_of_some (entryExprs?_outlines rest)]
    rfl

theorem argExprs?_outlines : (args : List TypePhrase) →
    TypeOutline.argExprs? (outlines args) = some (exprs args)
  | [] => rfl
  | ty :: rest => by
    rw [outlines, TypeOutline.argExprs?, Phrase.bind_of_some (expr?_outline ty),
      Phrase.bind_of_some (argExprs?_outlines rest)]
    rfl

end

end TypePhrase

open SchemaCodec.Syntax.Tree

def DeclPhrase.outline (phrase : DeclPhrase) : DeclOutline :=
  ⟨some phrase.name, if phrase.params.isEmpty then none else some phrase.params,
    some phrase.body.outline⟩

theorem names_separated (params : List String) :
    names (Terminal.leaf (.symbol .parenOpen) ::
      (separatedTrees (params.map fun param ↦ Terminal.leaf (.name param)) ++
        [Terminal.leaf (.symbol .parenClose)])) = params := by
  rw [separatedTrees]
  induction params with
  | nil => rfl
  | cons param params ih =>
    cases params with
    | nil => rfl
    | cons next params =>
      rw [List.map_cons, List.map_cons, List.intersperse_cons_cons]
      exact congrArg (List.cons param) ih

theorem declOutlines_decls (decls : List DeclPhrase) :
    declOutlines (decls.map DeclPhrase.tree) = decls.map DeclPhrase.outline := by
  induction decls with
  | nil => rfl
  | cons phrase decls ih =>
    obtain ⟨name, params, body⟩ := phrase
    have hbody : firstType? [Terminal.leaf (.symbol .equals), body.tree] = some body.outline := by
      change (typeOutline? body.tree).or none = some body.outline
      rw [body.typeOutline?_tree]
      rfl
    have hparams := names_separated params
    rw [List.map_cons, List.map_cons, ← ih, DeclPhrase.tree]
    -- what is in parentheses is one node, and no type
    cases params with
    | nil =>
      have hnone : nodeOf? .params [Terminal.leaf (.symbol .equals), body.tree] = none := by
        cases body with
        | braced form entries => cases form <;> rfl
        | ref qualifier name args => rfl
      change DeclOutline.mk (some name)
        ((nodeOf? .params [Terminal.leaf (.symbol .equals), body.tree]).map names)
          (firstType? [Terminal.leaf (.symbol .equals), body.tree]) :: _ = _
      rw [hbody, hnone]
      rfl
    | cons param params =>
      change DeclOutline.mk (some name) (some (names (Terminal.leaf (.symbol .parenOpen) ::
        (separatedTrees ((param :: params).map fun param ↦ Terminal.leaf (.name param)) ++
          [Terminal.leaf (.symbol .parenClose)]))))
          (firstType? [Terminal.leaf (.symbol .equals), body.tree]) :: _ = _
      rw [hparams, hbody]
      rfl

theorem DeclPhrase.decl?_outline (phrase : DeclPhrase) :
    phrase.outline.decl? = some phrase.decl := by
  obtain ⟨name, params, body⟩ := phrase
  have hbody := body.expr?_outline
  cases params with
  | nil => exact congrArg (fun expr ↦ expr.bind fun expr ↦ some (⟨name, [], expr⟩ : Decl)) hbody
  | cons param params =>
    exact congrArg (fun expr ↦ expr.bind fun expr ↦ some (⟨name, param :: params, expr⟩ : Decl))
      hbody

/-- The outline of a tree whose bare parts are those of a phrase is the module that it means. -/
theorem ModulePhrase.module_outline {phrase : ModulePhrase} {trees : List Tree}
    (h : bareForest trees = phrase.trees) :
    (Tree.node .root trees).outline.module = phrase.module := by
  have hdecls : (declOutlines (phrase.decls.map DeclPhrase.tree)).filterMap DeclOutline.decl?
      = phrase.decls.map DeclPhrase.decl := by
    rw [declOutlines_decls, List.filterMap_map]
    have hdecl : DeclOutline.decl? ∘ DeclPhrase.outline = some ∘ DeclPhrase.decl :=
      funext DeclPhrase.decl?_outline
    rw [hdecl, List.filterMap_eq_map]
  rw [← outline_bareForest, h]
  exact congrArg (Module.mk phrase.name) hdecls

end SchemaCodec.Syntax
