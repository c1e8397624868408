import Mathlib.Data.List.Infix
import Mathlib.Data.List.Nodup
import Mathlib.Data.List.Pairwise
import SchemaCodec.Proofs.Syntax.Intact
import SchemaCodec.Proofs.Syntax.LongestMatch

/-!
# Names in front of an equals sign

A name with an equals sign behind it is the name of a declaration, unless some rule of the grammar
has taken it before. A tree tells which of the two it is: the name of a declaration is the first
token of the node around the declaration, and what was taken stands in one of four places. They are
a header, a list of parameters, behind the dot of a qualified name, and what was skipped between
parentheses.

## Why no name is both

Where a token stands in a tree is settled by the token, since a text has no token twice. The name of
a declaration stands directly in a node of its kind, and a name that was taken stands directly in a
node of another kind.

## Why trees are sound for a node

Whether a name counts as taken depends on the node around it: a parameter is taken as a part of the
node around the parameters and nowhere else. So a tree is not sound by itself but as a part of a
node of some kind, and a node is sound as a part of any other one as soon as its parts are sound for
its own kind.
-/

namespace SchemaCodec.Syntax

/-- A name with an equals sign as the next token that is not trivia. -/
def Heading (tokens : List Token) (t : Token) : Prop :=
  t.kind = .id ∧ ∃ rest, t :: rest <:+ tokens ∧
    (rest.dropWhile (·.kind.isTrivia)).head?.map Token.kind = some .equals

theorem heading_iff_tails {tokens : List Token} {t : Token} : Heading tokens t ↔ t.kind = .id ∧
    ∃ tail ∈ tokens.tails, tail.head? = some t ∧
      (tail.tail.dropWhile (·.kind.isTrivia)).head?.map Token.kind = some .equals := by
  refine and_congr_right fun _ ↦ ⟨?_, ?_⟩
  · rintro ⟨rest, hrest, hequals⟩
    exact ⟨t :: rest, (List.mem_tails _ _).mpr hrest, rfl, hequals⟩
  · rintro ⟨tail, htail, hhead, hequals⟩
    obtain ⟨rest, rfl⟩ := List.head?_eq_some_iff.mp hhead
    exact ⟨rest, (List.mem_tails _ _).mp htail, hequals⟩

instance (tokens : List Token) (t : Token) : Decidable (Heading tokens t) :=
  decidable_of_iff _ heading_iff_tails.symm

theorem Heading.mem {tokens : List Token} {t : Token} (h : Heading tokens t) : t ∈ tokens := by
  obtain ⟨-, rest, hrest, -⟩ := h
  exact hrest.mem List.mem_cons_self

theorem not_heading_of_kind {tokens : List Token} {t : Token} (h : t.kind ≠ .id) :
    ¬Heading tokens t := fun hheading ↦ h hheading.1

theorem kind_ne_id_of_isTrivia {t : Token} (h : t.kind.isTrivia = true) : t.kind ≠ .id := by
  intro hid
  rw [hid] at h
  exact Bool.false_ne_true h

/-! ## A text has no token twice -/

namespace Token

theorem Tiles.pairwise_start {start stop : Nat} {tokens : List Token} (h : Tiles start tokens stop)
    (hne : ∀ t ∈ tokens, t.text ≠ "") :
    (∀ t ∈ tokens, start ≤ t.start) ∧ tokens.Pairwise (·.start < ·.start) := by
  induction tokens generalizing start with
  | nil => exact ⟨fun _ h ↦ absurd h List.not_mem_nil, .nil⟩
  | cons token rest ih =>
    obtain ⟨hlater, hpairwise⟩ := ih h.2 fun t ht ↦ hne t (List.mem_cons_of_mem _ ht)
    have hwidth : token.start < token.stop := by
      have hsize : token.text.utf8ByteSize ≠ 0 := by
        simpa using hne token List.mem_cons_self
      rw [Token.stop]
      omega
    have hstart : token.start = start := h.1
    refine ⟨List.forall_mem_cons.mpr ⟨Nat.le_of_eq hstart.symm, fun t ht ↦ ?_⟩,
      List.pairwise_cons.mpr ⟨fun t ht ↦ ?_, hpairwise⟩⟩
    · have := hlater t ht
      omega
    · exact Nat.lt_of_lt_of_le hwidth (hlater t ht)

theorem lex_nodup (source : String) : (lex source).Nodup := by
  refine ((lex_tiles source).pairwise_start (lex_ne_empty source)).2.imp fun hlt heq ↦ ?_
  rw [heq] at hlt
  exact Nat.lt_irrefl _ hlt

end Token

/-- What comes behind a token is settled by the token. -/
theorem rest_unique {tokens rest other : List Token} {t : Token} (hnodup : tokens.Nodup)
    (h : t :: rest <:+ tokens) (hother : t :: other <:+ tokens) : rest = other := by
  have hnotin {xs ys : List Token} (hxs : t :: xs <:+ tokens) (hys : t :: ys <:+ xs) : False :=
    (List.nodup_cons.mp (hxs.sublist.nodup hnodup)).1 (hys.mem List.mem_cons_self)
  rcases List.suffix_or_suffix_of_suffix h hother with hle | hle
  · rcases List.suffix_cons_iff.mp hle with heq | hlt
    · exact (List.cons.inj heq).2
    · exact (hnotin hother hlt).elim
  · rcases List.suffix_cons_iff.mp hle with heq | hlt
    · exact (List.cons.inj heq).2.symm
    · exact (hnotin h hlt).elim

/-! ## Names in trees -/

namespace Tree

/-- The first token that is not trivia. -/
def first? (tree : Tree) : Option Token := tree.tokens.find? fun t ↦ !t.kind.isTrivia

def token? : Tree → Option Token
  | token t => some t
  | node _ _ => none

/-- The tokens that a part of a node of some kind holds and that are taken whatever follows them: a
name in a header, a name among parameters, and what was skipped between parentheses. -/
def taken : (around : Kind) → Tree → List Token
  | .moduleHeader, token t | .params, token t => [t]
  | .params, node .error skipped | .args, node .error skipped => skipped.filterMap token?
  | _, _ => []

/-- The token behind the dot of a qualified name. -/
def behindDot (parts : List Tree) : Option Token :=
  (((parts.dropWhile (·.kind ≠ .dot)).drop 1).find? fun part ↦ !part.kind.isTrivia).bind token?

mutual

/-- The names of the declarations in a tree. -/
def declared : Tree → List Token
  | token _ => []
  | node kind children =>
    (if kind = .decl then (node kind children).first?.toList else []) ++ forestDeclared children

def forestDeclared : List Tree → List Token
  | [] => []
  | tree :: trees => declared tree ++ forestDeclared trees

end

mutual

/-- The tokens of a tree that were taken whatever follows them. -/
def swallowed : Tree → List Token
  | token _ => []
  | node kind children =>
    children.flatMap (taken kind) ++ (if kind = .ref then (behindDot children).toList else []) ++
      forestSwallowed children

/-- Such tokens of a list of trees. -/
def forestSwallowed : List Tree → List Token
  | [] => []
  | tree :: trees => swallowed tree ++ forestSwallowed trees

end

variable {tree : Tree} {trees : List Tree} {kind : Kind} {children : List Tree} {t : Token}

theorem tokens_node : (node kind children).tokens = children.flatMap tokens := by
  rw [tokens, tokensOnto]
  induction children with
  | nil => rfl
  | cons child rest ih => rw [forestOnto, tokensOnto_eq, ih, List.flatMap_cons, tokens]

theorem mem_tokens_node :
    t ∈ (node kind children).tokens ↔ ∃ child ∈ children, t ∈ child.tokens := by
  rw [tokens_node, List.mem_flatMap]

theorem mem_forestDeclared : t ∈ forestDeclared trees ↔ ∃ tree ∈ trees, t ∈ tree.declared := by
  induction trees with
  | nil => simp [forestDeclared]
  | cons tree trees ih => simp [forestDeclared, ih]

theorem mem_forestSwallowed : t ∈ forestSwallowed trees ↔ ∃ tree ∈ trees, t ∈ tree.swallowed := by
  induction trees with
  | nil => simp [forestSwallowed]
  | cons tree trees ih => simp [forestSwallowed, ih]

theorem mem_declared_node : t ∈ (node kind children).declared ↔
    kind = .decl ∧ (node kind children).first? = some t ∨
      ∃ child ∈ children, t ∈ child.declared := by
  rw [declared, List.mem_append, mem_forestDeclared]
  by_cases h : kind = .decl <;> simp [h]

theorem mem_swallowed_node : t ∈ (node kind children).swallowed ↔
    (∃ child ∈ children, t ∈ taken kind child) ∨ kind = .ref ∧ behindDot children = some t ∨
      ∃ child ∈ children, t ∈ child.swallowed := by
  rw [swallowed, List.mem_append, List.mem_append, mem_forestSwallowed, List.mem_flatMap, or_assoc]
  by_cases h : kind = .ref <;> simp [h]

/-! ## Where a token stands -/

/-- A token is a part of a node of some kind in a tree. -/
inductive Stands (t : Token) (kind : Kind) : Tree → Prop
  | here {children : List Tree} (h : token t ∈ children) : Stands t kind (node kind children)
  | inside {around : Kind} {child : Tree} {children : List Tree} (hchild : child ∈ children)
    (h : Stands t kind child) : Stands t kind (node around children)

theorem Stands.mem_tokens (h : Stands t kind tree) : t ∈ tree.tokens := by
  induction h with
  | here h => exact mem_tokens_node.mpr ⟨_, h, List.mem_singleton.mpr rfl⟩
  | inside hchild _ ih => exact mem_tokens_node.mpr ⟨_, hchild, ih⟩

/-- Two parts of a node that hold the same token are the same. -/
theorem eq_of_mem_tokens (hnodup : (node kind children).tokens.Nodup) {a b : Tree}
    (ha : a ∈ children) (hb : b ∈ children) (hta : t ∈ a.tokens) (htb : t ∈ b.tokens) : a = b := by
  rw [tokens_node, List.nodup_flatMap] at hnodup
  by_contra hne
  have : Std.Symm (Function.onFun List.Disjoint tokens) := ⟨fun _ _ h _ htb hta ↦ h hta htb⟩
  exact hnodup.2.forall ha hb hne hta htb

/-- Where tokens do not come twice, a token stands in one kind of node. -/
theorem Stands.unique {other : Kind} (hnodup : tree.tokens.Nodup) (h : Stands t kind tree)
    (hother : Stands t other tree) : kind = other := by
  induction h with
  | @here children h =>
    cases hother with
    | here => rfl
    | @inside _ child _ hchild hother =>
      have heq := eq_of_mem_tokens hnodup hchild h hother.mem_tokens (List.mem_singleton.mpr rfl)
      rw [heq] at hother
      cases hother
  | @inside around child children hchild h ih =>
    have hchildren : child.tokens.Nodup := by
      rw [tokens_node, List.nodup_flatMap] at hnodup
      exact hnodup.1 child hchild
    cases hother with
    | here htoken =>
      have heq := eq_of_mem_tokens hnodup hchild htoken h.mem_tokens (List.mem_singleton.mpr rfl)
      rw [heq] at h
      cases h
    | @inside _ child' _ hchild' hother =>
      obtain rfl := eq_of_mem_tokens hnodup hchild hchild' h.mem_tokens hother.mem_tokens
      exact ih hchildren hother

/-- A declaration begins with its name, behind trivia at most. -/
def NameFirst (children : List Tree) : Prop :=
  ∃ (gap : List Token) (name : Token) (rest : List Tree),
    children = gap.map token ++ token name :: rest ∧ (∀ t ∈ gap, t.kind.isTrivia = true) ∧
      name.kind.isTrivia = false

/-- All declarations of a tree begin with their names. -/
inductive Named : Tree → Prop
  | token (t : Token) : Named (token t)
  | node {kind : Kind} {children : List Tree} (h : ∀ child ∈ children, Named child)
    (hname : kind = .decl → NameFirst children) : Named (node kind children)

theorem first?_of_nameFirst {gap : List Token} {name : Token} {rest : List Tree}
    (hgap : ∀ t ∈ gap, t.kind.isTrivia = true) (hname : name.kind.isTrivia = false) :
    (node kind (gap.map token ++ token name :: rest)).first? = some name := by
  have htokens : (gap.map token).flatMap tokens = gap := by
    rw [List.flatMap_map]
    exact List.flatMap_singleton' gap
  rw [first?, tokens_node, List.flatMap_append, htokens, List.find?_append,
    List.find?_eq_none.mpr fun t ht ↦ by simp [hgap t ht], List.flatMap_cons, Option.none_or]
  exact List.find?_cons_of_pos (by simp [hname])

theorem stands_of_mem_declared (h : tree.Named) (ht : t ∈ tree.declared) : Stands t .decl tree := by
  induction h with
  | token => simp [declared] at ht
  | @node kind children _ hname ih =>
    rcases mem_declared_node.mp ht with ⟨rfl, hfirst⟩ | ⟨child, hchild, ht⟩
    · obtain ⟨gap, name, rest, rfl, hgap, htrivia⟩ := hname rfl
      rw [first?_of_nameFirst hgap htrivia] at hfirst
      obtain rfl := Option.some_inj.mp hfirst
      exact .here (List.mem_append_right _ List.mem_cons_self)
    · exact .inside hchild (ih child hchild ht)

theorem eq_token_of_token? (h : tree.token? = some t) : tree = token t := by
  cases tree with
  | token u => exact congrArg token (Option.some_inj.mp h)
  | node => cases h

theorem mem_of_behindDot (h : behindDot children = some t) : token t ∈ children := by
  obtain ⟨part, hpart, htoken⟩ := Option.bind_eq_some_iff.mp h
  rw [← eq_token_of_token? htoken]
  exact (List.dropWhile_sublist _).mem (List.mem_of_mem_drop (List.mem_of_find?_eq_some hpart))

/-- Behind the first dot and trivia comes the name that it qualifies. -/
theorem behindDot_append {before after : List Tree} {dot name : Token} {gap : List Token}
    (hbefore : ∀ part ∈ before, part.kind ≠ .dot) (hdot : dot.kind = .dot)
    (hgap : ∀ t ∈ gap, t.kind.isTrivia = true) (hname : name.kind.isTrivia = false) :
    behindDot (before ++ token dot :: (gap.map token ++ ([token name] ++ after))) = some name := by
  have hdrop : (before ++ token dot :: (gap.map token ++ ([token name] ++ after))).dropWhile
      (·.kind ≠ .dot) = token dot :: (gap.map token ++ ([token name] ++ after)) := by
    rw [List.dropWhile_append_of_pos fun part hpart ↦ by simpa using hbefore part hpart,
      List.dropWhile_cons_of_neg (by simp [kind, hdot])]
  have hnone : (gap.map token).find? (fun part ↦ !part.kind.isTrivia) = none := by
    simpa [kind] using hgap
  rw [behindDot, hdrop, List.drop_one, List.tail_cons, List.find?_append, hnone, Option.none_or,
    List.cons_append, List.find?_cons_of_pos (by simpa [kind] using hname)]
  rfl

theorem stands_of_mem_taken {child : Tree} (hchild : child ∈ children) (ht : t ∈ taken kind child) :
    ∃ other ≠ .decl, Stands t other (node kind children) := by
  have hskipped {skipped : List Tree} (ht : t ∈ skipped.filterMap token?) :
      Stands t .error (node .error skipped) := by
    obtain ⟨part, hpart, htoken⟩ := List.mem_filterMap.mp ht
    rw [eq_token_of_token? htoken] at hpart
    exact .here hpart
  rw [taken.eq_def] at ht
  split at ht
  · obtain rfl := List.mem_singleton.mp ht
    exact ⟨.moduleHeader, by decide, .here hchild⟩
  · obtain rfl := List.mem_singleton.mp ht
    exact ⟨.params, by decide, .here hchild⟩
  · exact ⟨.error, by decide, .inside hchild (hskipped ht)⟩
  · exact ⟨.error, by decide, .inside hchild (hskipped ht)⟩
  · exact absurd ht List.not_mem_nil

mutual

theorem stands_of_mem_swallowed : (tree : Tree) → t ∈ tree.swallowed →
    ∃ kind ≠ .decl, Stands t kind tree
  | token _, ht => absurd ht List.not_mem_nil
  | node around children, ht => by
    rcases mem_swallowed_node.mp ht with ⟨child, hchild, ht⟩ | ⟨rfl, hdot⟩ | hinside
    · exact stands_of_mem_taken hchild ht
    · exact ⟨.ref, by decide, .here (mem_of_behindDot hdot)⟩
    · obtain ⟨child, hchild, kind, hkind, h⟩ :=
        forest_stands children (mem_forestSwallowed.mpr hinside)
      exact ⟨kind, hkind, .inside hchild h⟩

theorem forest_stands : (trees : List Tree) → t ∈ forestSwallowed trees →
    ∃ tree ∈ trees, ∃ kind ≠ .decl, Stands t kind tree
  | [], ht => absurd ht List.not_mem_nil
  | tree :: trees, ht => by
    rcases List.mem_append.mp ht with ht | ht
    · exact ⟨tree, List.mem_cons_self, stands_of_mem_swallowed tree ht⟩
    · obtain ⟨other, hother, h⟩ := forest_stands trees ht
      exact ⟨other, List.mem_cons_of_mem _ hother, h⟩

end

/-- No name is that of a declaration and taken. -/
theorem not_swallowed_of_declared (hnodup : tree.tokens.Nodup) (hnamed : tree.Named)
    (ht : t ∈ tree.declared) : t ∉ tree.swallowed := by
  intro hswallowed
  obtain ⟨kind, hkind, h⟩ := stands_of_mem_swallowed tree hswallowed
  exact hkind (h.unique hnodup (stands_of_mem_declared hnamed ht))

end Tree

variable {tokens : List Token}

/-! ## Sound trees -/

/-- A part of a node of some kind in which every heading is the name of a declaration or taken. -/
structure Sound (tokens : List Token) (around : Kind) (tree : Tree) : Prop where
  named : tree.Named
  accounted : ∀ t ∈ tree.tokens, Heading tokens t →
    t ∈ tree.declared ∨ t ∈ tree.swallowed ∨ t ∈ Tree.taken around tree

section

variable {around kind : Kind} {children : List Tree} {t : Token}

theorem sound_token (h : Heading tokens t → t ∈ Tree.taken around (.token t)) :
    Sound tokens around (.token t) := by
  refine ⟨.token t, fun u hu hheading ↦ .inr (.inr ?_)⟩
  obtain rfl := List.mem_singleton.mp hu
  exact h hheading

theorem sound_other (h : t.kind ≠ .id) : Sound tokens around (.token t) :=
  sound_token fun hheading ↦ absurd hheading (not_heading_of_kind h)

/-- A node is sound if its parts are, apart from the name of a declaration and the name behind a
dot. -/
theorem sound_node (hname : kind = .decl → Tree.NameFirst children)
    (h : ∀ child ∈ children, Sound tokens kind child ∨ ∃ t, child = .token t ∧
      (kind = .decl ∧ (Tree.node kind children).first? = some t ∨
        kind = .ref ∧ Tree.behindDot children = some t)) :
    Sound tokens around (.node kind children) := by
  refine ⟨.node (fun child hchild ↦ ?_) hname, fun t ht hheading ↦ ?_⟩
  · rcases h child hchild with hsound | ⟨t, rfl, -⟩
    · exact hsound.named
    · exact .token t
  · rw [Tree.mem_declared_node, Tree.mem_swallowed_node]
    obtain ⟨child, hchild, hmem⟩ := Tree.mem_tokens_node.mp ht
    rcases h child hchild with hsound | ⟨u, rfl, ⟨rfl, hfirst⟩ | ⟨rfl, hdot⟩⟩
    · rcases hsound.accounted t hmem hheading with hdeclared | hswallowed | htaken
      · exact .inl (.inr ⟨child, hchild, hdeclared⟩)
      · exact .inr (.inl (.inr (.inr ⟨child, hchild, hswallowed⟩)))
      · exact .inr (.inl (.inl ⟨child, hchild, htaken⟩))
    · obtain rfl := List.mem_singleton.mp hmem
      exact .inl (.inl ⟨rfl, hfirst⟩)
    · obtain rfl := List.mem_singleton.mp hmem
      exact .inr (.inl (.inr (.inl ⟨rfl, hdot⟩)))

/-- What was skipped holds no heading, or all its tokens are taken. -/
theorem sound_error (hskipped : ∀ part ∈ children, ∃ t : Token, part = .token t ∧
    (t.kind = .id → around = .params ∨ around = .args)) :
    Sound tokens around (.node .error children) := by
  by_cases haround : around = .params ∨ around = .args
  · refine ⟨.node (fun part hpart ↦ ?_) (fun h ↦ by cases h), fun t ht _ ↦ .inr (.inr ?_)⟩
    · obtain ⟨t, rfl, -⟩ := hskipped part hpart
      exact .token t
    · obtain ⟨part, hpart, hmem⟩ := Tree.mem_tokens_node.mp ht
      obtain ⟨u, rfl, -⟩ := hskipped part hpart
      obtain rfl := List.mem_singleton.mp hmem
      have hmem : t ∈ children.filterMap Tree.token? := List.mem_filterMap.mpr ⟨_, hpart, rfl⟩
      rcases haround with rfl | rfl <;> exact hmem
  · refine sound_node (fun h ↦ by cases h) fun part hpart ↦ .inl ?_
    obtain ⟨t, rfl, hid⟩ := hskipped part hpart
    exact sound_other fun h ↦ haround (hid h)

/-- A declaration is sound if what comes behind its name is. -/
theorem sound_decl {gap : List Token} {name : Token} {rest : List Tree}
    (hgap : ∀ t ∈ gap, t.kind.isTrivia = true) (hname : name.kind = .id)
    (hrest : ∀ tree ∈ rest, Sound tokens .decl tree) :
    Sound tokens around (.node .decl (gap.map .token ++ .token name :: rest)) := by
  have htrivia : name.kind.isTrivia = false := by rw [hname]; rfl
  refine sound_node (fun _ ↦ ⟨gap, name, rest, rfl, hgap, htrivia⟩) fun child hchild ↦ ?_
  rcases List.mem_append.mp hchild with hchild | hchild
  · obtain ⟨t, ht, rfl⟩ := List.mem_map.mp hchild
    exact .inl (sound_other (kind_ne_id_of_isTrivia (hgap t ht)))
  · rcases List.mem_cons.mp hchild with rfl | hchild
    · exact .inr ⟨name, rfl, .inl ⟨rfl, Tree.first?_of_nameFirst hgap htrivia⟩⟩
    · exact .inl (hrest child hchild)

/-- The parts of a name, perhaps qualified, in which only the name behind the dot may be taken. -/
def NameParts (tokens : List Token) (parts : List Tree) : Prop :=
  (∀ part ∈ parts, Sound tokens .ref part) ∨
    ∃ (before : List Tree) (dot : Token) (gap : List Token) (name : Token),
      parts = before ++ .token dot :: (gap.map .token ++ [.token name]) ∧
      (∀ part ∈ before, Sound tokens .ref part ∧ part.kind ≠ .dot) ∧ dot.kind = .dot ∧
      (∀ t ∈ gap, t.kind.isTrivia = true) ∧ name.kind.isTrivia = false

theorem sound_ref {parts args : List Tree} (hparts : NameParts tokens parts)
    (hargs : ∀ tree ∈ args, Sound tokens .ref tree) :
    Sound tokens around (.node .ref (parts ++ args)) := by
  refine sound_node (fun h ↦ by cases h) fun child hchild ↦ ?_
  rcases List.mem_append.mp hchild with hpart | harg
  · rcases hparts with hsound | ⟨before, dot, gap, name, rfl, hbefore, hdot, hgap, hname⟩
    · exact .inl (hsound child hpart)
    · rcases List.mem_append.mp hpart with hpart | hpart
      · exact .inl (hbefore child hpart).1
      · rcases List.mem_cons.mp hpart with rfl | hpart
        · exact .inl (sound_other (by rw [hdot]; decide))
        · rcases List.mem_append.mp hpart with hpart | hpart
          · obtain ⟨t, ht, rfl⟩ := List.mem_map.mp hpart
            exact .inl (sound_other (kind_ne_id_of_isTrivia (hgap t ht)))
          · refine .inr ⟨name, List.mem_singleton.mp hpart, .inr ⟨rfl, ?_⟩⟩
            rw [List.append_assoc, List.cons_append, List.append_assoc]
            exact Tree.behindDot_append (fun part h ↦ (hbefore part h).2) hdot hgap hname
  · exact .inl (hargs child harg)

end

end SchemaCodec.Syntax
