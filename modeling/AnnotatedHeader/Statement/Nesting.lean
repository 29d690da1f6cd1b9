import AnnotatedHeader.Token

/-! Nesting: which tokens of a statement stand inside brackets.

Parentheses, brackets and braces share one depth. A `<` opens an angle bracket
only right behind an identifier; a closing sign without an opening one is
passed over. Commas and other signs count at the top, where nothing is open. -/
namespace AnnotatedHeader

structure Nesting where
  depth : Nat := 0
  angle : Nat := 0
  /-- The token read last. -/
  prev : Option Token := none
  deriving DecidableEq, Repr

namespace Nesting

def isTop (n : Nesting) : Bool := n.depth == 0 && n.angle == 0

/-- Whether a `<` read now opens an angle bracket. -/
def angleMayOpen (n : Nesting) : Bool :=
  n.prev.any fun p => p.kind == .ident && !p.isIdent "operator"

def afterOperator (n : Nesting) : Bool := n.prev.any (·.isIdent "operator")

/-- The nesting behind one more token. -/
def step (n : Nesting) (t : Token) : Nesting :=
  match t.kind with
  | .lparen | .lbracket | .lbrace => { n with depth := n.depth + 1, prev := some t }
  | .rparen | .rbracket | .rbrace => { n with depth := n.depth - 1, prev := some t }
  | .less => { n with angle := if n.angleMayOpen then n.angle + 1 else n.angle, prev := some t }
  | .greater => { n with angle := n.angle - 1, prev := some t }
  | _ => { n with prev := some t }

/-- The place of the first token of `kind` at the top. -/
def findFrom (kind : TokenKind) (n : Nesting) : List Token → Option Nat
  | [] => none
  | t :: ts =>
    if t.kind = kind && n.isTop then some 0 else (findFrom kind (n.step t) ts).map (· + 1)

/-- `t` put in front of the first part, which then starts at `offset`. -/
def consToken (offset : Nat) (t : Token) : List (Nat × List Token) → List (Nat × List Token)
  | [] => [(offset, [t])]
  | (_, part) :: parts => (offset, t :: part) :: parts

/-- The parts between commas at the top, each with its place. -/
def partsFrom (n : Nesting) (offset : Nat) : List Token → List (Nat × List Token)
  | [] => [(offset, [])]
  | t :: ts =>
    if t.kind = .comma && n.isTop then (offset, []) :: partsFrom (n.step t) (offset + 1) ts
    else consToken offset t (partsFrom (n.step t) (offset + 1) ts)

end Nesting

def findTop? (kind : TokenKind) (ts : List Token) : Option Nat := Nesting.findFrom kind {} ts

def commaParts (ts : List Token) : List (Nat × List Token) := Nesting.partsFrom {} 0 ts

/-! ### Parameter lists -/

/-- The tokens before and behind the parenthesis that opens a parameter list. None
follows a top level `=`, that of an operator's name apart, or `{`. -/
def splitCallFrom (n : Nesting) : List Token → Option (List Token × List Token)
  | [] => none
  | t :: ts =>
    let further := (splitCallFrom (n.step t) ts).map fun (before, behind) => (t :: before, behind)
    if n.angle = 0 then
      match t.kind, ts with
      | .equals, _ => if n.afterOperator then further else none
      | .lbrace, _ => none
      | .lparen, close :: opening :: rest =>
        -- The first pair of `operator()(...)` belongs to the name.
        if n.afterOperator && close.kind == .rparen && opening.kind == .lparen then
          some ([t, close], rest)
        else some ([], ts)
      | .lparen, _ => some ([], ts)
      | _, _ => further
    else further

/-- The parts before and behind a parenthesis are parts of the tokens around it. -/
theorem subset_of_map_cons {t : Token} {ts inside behind : List Token}
    {o : Option (List Token × List Token)}
    (hsubset : ∀ e ∈ o, e.1 ⊆ ts ∧ e.2 ⊆ ts)
    (h : o.map (fun (inside, behind) => (t :: inside, behind)) = some (inside, behind)) :
    inside ⊆ t :: ts ∧ behind ⊆ t :: ts := by
  obtain ⟨⟨inside, behind⟩, he, heq⟩ := Option.map_eq_some_iff.1 h
  cases heq
  obtain ⟨hinside, hbehind⟩ := hsubset _ he
  exact ⟨List.cons_subset_cons t hinside, List.subset_cons_of_subset t hbehind⟩

theorem splitCallFrom_subset {n : Nesting} {ts : List Token} :
    ∀ e ∈ splitCallFrom n ts, e.1 ⊆ ts ∧ e.2 ⊆ ts := by
  induction ts generalizing n with
  | nil => simp [splitCallFrom]
  | cons t ts ih =>
    rintro ⟨before, behind⟩ h
    rw [Option.mem_def] at h
    unfold splitCallFrom at h
    dsimp only at h
    have hopens : ([], ts) = (before, behind) → before ⊆ t :: ts ∧ behind ⊆ t :: ts := by
      rintro ⟨⟩
      exact ⟨List.nil_subset _, List.subset_cons_self ..⟩
    split at h
    · split at h
      · split at h
        · exact subset_of_map_cons ih h
        · cases h
      · cases h
      · rename_i close opening rest
        split at h
        · cases h
          exact ⟨by simp, fun x hx => by simp [hx]⟩
        · exact hopens (Option.some.inj h)
      · exact hopens (Option.some.inj h)
      · exact subset_of_map_cons ih h
    · exact subset_of_map_cons ih h

def splitCall? (ts : List Token) : Option (List Token × List Token) := splitCallFrom {} ts

/-- The tokens before and behind the parenthesis that closes one opened in front of
the tokens; `depth` counts further ones that are open. -/
def splitClose? (depth : Nat) : List Token → Option (List Token × List Token)
  | [] => none
  | t :: ts =>
    match t.kind, depth with
    | .rparen, 0 => some ([], ts)
    | .rparen, depth + 1 =>
      (splitClose? depth ts).map fun (inside, behind) => (t :: inside, behind)
    | .lparen, depth =>
      (splitClose? (depth + 1) ts).map fun (inside, behind) => (t :: inside, behind)
    | _, depth => (splitClose? depth ts).map fun (inside, behind) => (t :: inside, behind)

theorem splitClose?_subset {depth : Nat} {ts : List Token} :
    ∀ e ∈ splitClose? depth ts, e.1 ⊆ ts ∧ e.2 ⊆ ts := by
  rintro ⟨inside, behind⟩ h
  rw [Option.mem_def] at h
  fun_induction splitClose? depth ts generalizing inside behind with
  | case1 => cases h
  | case2 t ts =>
    cases h
    exact ⟨List.nil_subset _, List.subset_cons_self ..⟩
  | case3 t ts depth _ ih | case4 t ts depth _ ih =>
    exact subset_of_map_cons (fun e he => ih e.1 e.2 he) h
  | case5 t ts depth _ _ _ ih =>
    exact subset_of_map_cons (fun e he => ih e.1 e.2 he) h

/-! ### Braces -/

/-- What a `{` outside parentheses opens. -/
inductive BraceRole where
  | body
  | initializer
  deriving DecidableEq, Repr

def scopeKeywords : List String := ["enum", "struct", "class", "union", "namespace", "extern"]

/-- What a `{` behind these tokens of a statement opens. Behind a parameter list it
is a body, unless a member's initializer in a constructor's list is due. -/
def braceRole (ts : List Token) : BraceRole :=
  match splitCall? ts with
  | some (_, rest) =>
    match splitClose? 0 rest with
    | none => .body
    | some (_, behind) =>
      let last := ts.getLast?.map (·.kind)
      if behind.any (·.kind == .colon) && (last == some .ident || last == some .greater) then
        .initializer
      else .body
  | none =>
    if (findTop? .equals ts).isSome then .initializer
    else if ts.head?.any fun first => scopeKeywords.any (first.isIdent ·) then .body
    else .initializer

end AnnotatedHeader
