import SchemaCodec.Proofs.Syntax.Trees

/-!
# Trees without trivia

What is left of a tree when blanks and comments are taken out of it, and the places of its tokens
with them. Two things are read off a tree, its dump and its outline, and both are read off what is
left as well. So two trees of which the same is left have the same dump and declare the same module.

## Why not bare trees

A bare tree keeps no text of a token that is no name. That is enough for the outline, but a dump
shows the texts of all tokens, those that no rule reads included.

## Why the dump is described again

The dump goes through the list of all parts with their offsets, and trivia shift the offsets of what
follows them. No line of the dump shows an offset, so it is a function of the tree alone.
-/

namespace SchemaCodec.Syntax

/-! ## What tokens say -/

namespace Token

/-- What a token says wherever it stands: its kind and its text. -/
def word (t : Token) : Kind × String := (t.kind, t.text)

/-- A token that stands nowhere in particular. -/
def unplaced (t : Token) : Token := ⟨t.kind, 0, t.text⟩

theorem unplaced_eq_of_word_eq {t u : Token} (h : t.word = u.word) : t.unplaced = u.unplaced := by
  obtain ⟨hkind, htext⟩ := Prod.mk.inj h
  rw [unplaced, unplaced, hkind, htext]

theorem terminal_unplaced (t : Token) : t.unplaced.terminal = t.terminal := rfl

end Token

namespace Tree

mutual

/-- A tree without trivia and places. Nothing is left of a token that is trivia itself. -/
def stripped? : Tree → Option Tree
  | token t => if t.kind.isTrivia then none else some (token t.unplaced)
  | node kind children => some (node kind (strippedForest children))

def strippedForest : List Tree → List Tree
  | [] => []
  | tree :: rest => (stripped? tree).toList ++ strippedForest rest

end

theorem strippedForest_eq (trees : List Tree) :
    strippedForest trees = trees.filterMap stripped? := by
  induction trees with
  | nil => rfl
  | cons tree trees ih =>
    rw [strippedForest, ih, List.filterMap_cons]
    rcases stripped? tree <;> rfl

theorem strippedForest_append (trees others : List Tree) :
    strippedForest (trees ++ others) = strippedForest trees ++ strippedForest others := by
  rw [strippedForest_eq, strippedForest_eq, strippedForest_eq, List.filterMap_append]

theorem strippedForest_reverse (trees : List Tree) :
    strippedForest trees.reverse = (strippedForest trees).reverse := by
  rw [strippedForest_eq, strippedForest_eq, List.filterMap_reverse]

theorem strippedForest_trivia {t : Token} (h : t.kind.isTrivia = true) (rest : List Tree) :
    strippedForest (token t :: rest) = strippedForest rest := by
  rw [strippedForest, stripped?, if_pos h]
  rfl

theorem strippedForest_token {t : Token} (h : ¬t.kind.isTrivia = true) (rest : List Tree) :
    strippedForest (token t :: rest) = token t.unplaced :: strippedForest rest := by
  rw [strippedForest, stripped?, if_neg h]
  rfl

theorem strippedForest_node (kind : Kind) (children rest : List Tree) :
    strippedForest (node kind children :: rest)
      = node kind (strippedForest children) :: strippedForest rest := rfl

theorem strippedForest_map_token {tokens : List Token}
    (h : ∀ t ∈ tokens, t.kind.isTrivia = true) : strippedForest (tokens.map token) = [] := by
  induction tokens with
  | nil => rfl
  | cons t tokens ih =>
    obtain ⟨ht, hrest⟩ := List.forall_mem_cons.mp h
    rw [List.map_cons, strippedForest_trivia ht, ih hrest]

/-! ## Outlines -/

mutual

theorem bareForest_stripped? : (tree : Tree) →
    bareForest (stripped? tree).toList = (bare? tree).toList
  | token t => by
    by_cases htrivia : t.kind.isTrivia = true
    · rw [stripped?, bare?, if_pos htrivia, if_pos htrivia]
      rfl
    · have hunplaced : ¬t.unplaced.kind.isTrivia = true := htrivia
      rw [stripped?, bare?, if_neg htrivia, if_neg htrivia, Option.toList_some,
        bareForest_token hunplaced, Token.terminal_unplaced]
      rfl
  | node kind children => by
    rw [stripped?, bare?, Option.toList_some, bareForest_node, bareForest_strippedForest children]
    rfl

/-- A tree that is bare has lost what a stripped one has lost. -/
theorem bareForest_strippedForest : (trees : List Tree) →
    bareForest (strippedForest trees) = bareForest trees
  | [] => rfl
  | tree :: rest => by
    rw [strippedForest, bareForest_append, bareForest_stripped? tree,
      bareForest_strippedForest rest, bareForest]

end

/-- Trees of which the same is left have the same outline. -/
theorem outline_of_stripped {kind : Kind} {children others : List Tree}
    (h : strippedForest children = strippedForest others) :
    (node kind children).outline = (node kind others).outline := by
  rw [← outline_bareForest, ← bareForest_strippedForest, h, bareForest_strippedForest,
    outline_bareForest]

/-! ## Dumps -/

/-- The lines of a dump for one part: none if it is trivia. -/
def Part.lines (part : Part) : List String :=
  if part.kind.isTrivia then [] else [part.dumpLine]

mutual

/-- The lines of a dump for a tree at some depth. -/
def linesAt (depth : Nat) : Tree → List String
  | token t => Part.lines ⟨depth, t.kind, .empty 0, some t.text⟩
  | node kind children =>
    Part.lines ⟨depth, kind, .empty 0, none⟩ ++ forestLinesAt (depth + 1) children

def forestLinesAt (depth : Nat) : List Tree → List String
  | [] => []
  | tree :: trees => linesAt depth tree ++ forestLinesAt depth trees

end

/-- The lines of a dump for parts of which the latest comes first. -/
def partLines (parts : List Part) : List String :=
  (parts.reverse.filter fun part ↦ !part.kind.isTrivia).map Part.dumpLine

theorem partLines_cons (part : Part) (parts : List Part) :
    partLines (part :: parts) = partLines parts ++ part.lines := by
  rw [partLines, partLines, List.reverse_cons, List.filter_append, List.map_append, Part.lines]
  by_cases htrivia : part.kind.isTrivia = true
  · simp [htrivia]
  · simp [htrivia]

/-- No line shows where a part stands. -/
theorem Part.lines_span (depth : Nat) (kind : Kind) (span : Span) (text : Option String) :
    lines ⟨depth, kind, span, text⟩ = lines ⟨depth, kind, .empty 0, text⟩ := rfl

mutual

theorem partLines_partsFrom (depth offset : Nat) : (tree : Tree) → (parts : List Part) →
    partLines (partsFrom depth offset tree parts).1 = partLines parts ++ linesAt depth tree
  | token t, parts => by
    rw [partsFrom, partLines_cons, linesAt, Part.lines_span]
  | node kind children, parts => by
    rw [partsFrom, partLines_forestPartsFrom, partLines_cons, linesAt, Part.lines_span,
      List.append_assoc]

/-- The lines for some trees come behind those for the parts so far. -/
theorem partLines_forestPartsFrom (depth offset : Nat) : (trees : List Tree) →
    (parts : List Part) →
    partLines (forestPartsFrom depth offset trees parts).1
      = partLines parts ++ forestLinesAt depth trees
  | [], parts => (List.append_nil _).symm
  | tree :: trees, parts => by
    rw [forestPartsFrom]
    dsimp only
    rw [partLines_forestPartsFrom depth _ trees, partLines_partsFrom depth offset tree,
      forestLinesAt, List.append_assoc]

end

theorem dumpLines_eq (tree : Tree) : tree.dumpLines = linesAt 0 tree := by
  have hlines := partLines_partsFrom 0 0 tree []
  rw [show partLines [] = [] from rfl, List.nil_append] at hlines
  exact hlines

theorem forestLinesAt_append (depth : Nat) (trees others : List Tree) :
    forestLinesAt depth (trees ++ others)
      = forestLinesAt depth trees ++ forestLinesAt depth others := by
  induction trees with
  | nil => rfl
  | cons tree trees ih =>
    rw [List.cons_append, forestLinesAt, ih, forestLinesAt, List.append_assoc]

mutual

theorem forestLinesAt_stripped? (depth : Nat) : (tree : Tree) →
    forestLinesAt depth (stripped? tree).toList = linesAt depth tree
  | token t => by
    by_cases htrivia : t.kind.isTrivia = true
    · rw [stripped?, if_pos htrivia, linesAt, Part.lines, if_pos htrivia]
      rfl
    · rw [stripped?, if_neg htrivia]
      exact List.append_nil _
  | node kind children => by
    rw [stripped?, Option.toList_some, forestLinesAt, forestLinesAt, List.append_nil, linesAt,
      linesAt, forestLinesAt_strippedForest (depth + 1) children]

theorem forestLinesAt_strippedForest (depth : Nat) : (trees : List Tree) →
    forestLinesAt depth (strippedForest trees) = forestLinesAt depth trees
  | [] => rfl
  | tree :: rest => by
    rw [strippedForest, forestLinesAt_append, forestLinesAt_stripped? depth tree,
      forestLinesAt_strippedForest depth rest, forestLinesAt]

end

/-- Trees of which the same is left have the same dump. -/
theorem dumpLines_of_stripped {kind : Kind} {children others : List Tree}
    (h : strippedForest children = strippedForest others) :
    (node kind children).dumpLines = (node kind others).dumpLines := by
  rw [dumpLines_eq, dumpLines_eq, linesAt, linesAt, ← forestLinesAt_strippedForest, h,
    forestLinesAt_strippedForest]

end Tree

end SchemaCodec.Syntax
