import AnnotatedHeader.EnumBody
import AnnotatedHeader.Statement.Head

/-! Heads read by place.

The readers of heads take lists apart. Here the same heads are read as from an array: a token by
its place, a stretch of tokens by its two ends, a place in front of another by subtraction. Each
reader answers nothing if a place is out of range, if the ends of a stretch are out of order or
if a subtraction goes below zero (`back?`, `slice?`, `minus?`). Loops go over the tokens with the
place of the next one. -/
namespace AnnotatedHeader.ByPlace

variable {α : Type}

/-- The difference, if it is not below zero. -/
def minus? (a b : Nat) : Option Nat := if b ≤ a then some (a - b) else none

/-- The items from place `start` up to place `stop`, if these are places in order. -/
def slice? (xs : List α) (start stop : Nat) : Option (List α) :=
  if start ≤ stop ∧ stop ≤ xs.length then some ((xs.take stop).drop start) else none

/-- The token so many places in front of a place. -/
def back? (ts : List Token) (i k : Nat) : Option Token := do
  ts[← minus? i k]?

/-- Whether a token that is sought stands so many places in front, where there is such a place. -/
def standsBack (sought : Token → Bool) (ts : List Token) (i k : Nat) : Option Bool :=
  if k ≤ i then sought <$> back? ts i k else some false

/-- The place of the last item that is sought, if there is one. -/
def lastPlace? (sought : α → Bool) (xs : List α) : Option Nat :=
  match xs.reverse.dropWhile (!sought ·) with
  | [] => none
  | _ :: before => some before.length

/-! ### Text -/

/-- Whether a space stands in front of the token `t` at place `i`. -/
def spaceAt (ts : List Token) (i : Nat) (t : Token) : Option Bool :=
  if 0 < i then do
    let before ← if 1 < i then some <$> back? ts i 2 else some none
    let prev ← back? ts i 1
    return Token.needsSpace before prev t
  else some false

def joinFrom (ts : List Token) (i : Nat) : List Token → Option String
  | [] => some ""
  | t :: rest => do
    let space ← spaceAt ts i t
    let text ← joinFrom ts (i + 1) rest
    return (if space then " " else "") ++ t.text ++ text

def join (ts : List Token) : Option String := joinFrom ts 0 ts

/-! ### Nesting -/

/-- Whether a `<` at this place opens an angle bracket. -/
def opensAngle (ts : List Token) (i : Nat) : Option Bool :=
  standsBack (fun prev => prev.kind == .ident && !prev.isIdent "operator") ts i 1

/-- The angle brackets that are open behind the token `t` at place `i`. -/
def angleBehind (ts : List Token) (i angle : Nat) (t : Token) : Option Nat :=
  match t.kind with
  | .less => do return if ← opensAngle ts i then angle + 1 else angle
  | .greater => if 0 < angle then minus? angle 1 else some angle
  | _ => some angle

/-- The parts between commas, the next of which starts at place `start`. -/
def partsFrom (ts : List Token) (start i depth angle : Nat) :
    List Token → Option (List (Nat × List Token))
  | [] => do return [(start, ← slice? ts start ts.length)]
  | t :: rest =>
    if t.kind = .comma ∧ depth = 0 ∧ angle = 0 then do
      let part ← slice? ts start i
      let parts ← partsFrom ts (i + 1) (i + 1) depth angle rest
      return (start, part) :: parts
    else do
      let angle ← angleBehind ts i angle t
      partsFrom ts start (i + 1) (EnumBody.bracketDepth depth t.kind) angle rest

def commaParts (ts : List Token) : Option (List (Nat × List Token)) := partsFrom ts 0 0 0 0 ts

def findFrom (ts : List Token) (kind : TokenKind) (i depth angle : Nat) :
    List Token → Option (Option Nat)
  | [] => some none
  | t :: rest =>
    if t.kind = kind ∧ depth = 0 ∧ angle = 0 then some (some i)
    else do
      let angle ← angleBehind ts i angle t
      findFrom ts kind (i + 1) (EnumBody.bracketDepth depth t.kind) angle rest

def findTop (ts : List Token) (kind : TokenKind) : Option (Option Nat) := findFrom ts kind 0 0 0 ts

def matchingFrom (opens closes : TokenKind) (i depth : Nat) : List Token → Option (Option Nat)
  | [] => some none
  | t :: rest =>
    if t.kind = opens then matchingFrom opens closes (i + 1) (depth + 1) rest
    else if t.kind = closes then do
      let depth ← minus? depth 1
      if depth = 0 then return some i else matchingFrom opens closes (i + 1) depth rest
    else matchingFrom opens closes (i + 1) depth rest

/-- The place of the bracket that closes the one at a place. -/
def matching (ts : List Token) (opening : Nat) : Option (Option Nat) := do
  let t ← ts[opening]?
  match t.kind with
  | .lparen => matchingFrom .lparen .rparen opening 0 (ts.drop opening)
  | .lbracket => matchingFrom .lbracket .rbracket opening 0 (ts.drop opening)
  | .lbrace => matchingFrom .lbrace .rbrace opening 0 (ts.drop opening)
  | _ => return none

/-! ### Parameter lists -/

def findCallFrom (ts : List Token) (i angle : Nat) : List Token → Option (Option Nat)
  | [] => some none
  | t :: rest => do
    let afterOperator ← standsBack (·.isIdent "operator") ts i 1
    if t.kind = .equals ∧ angle = 0 ∧ afterOperator = false then return none
    else if t.kind = .lbrace ∧ angle = 0 then return none
    else if t.kind = .lparen ∧ angle = 0 then
      -- The first pair of `operator()(...)` belongs to the name.
      if afterOperator && ts[i + 1]?.any (·.kind == .rparen) && ts[i + 2]?.any (·.kind == .lparen) then
        return some (i + 2)
      else return some i
    else
      let angle ← angleBehind ts i angle t
      findCallFrom ts (i + 1) angle rest

/-- The place of the parenthesis that opens a parameter list. -/
def findCall (ts : List Token) : Option (Option Nat) := findCallFrom ts 0 0 ts

def braceRole (ts : List Token) : Option BraceRole :=
  match ts with
  | [] => some .initializer
  | first :: _ => do
    match ← findCall ts with
    | some opening =>
      match ← matching ts opening with
      | some close =>
        let behind ← slice? ts (close + 1) ts.length
        let last := ts.getLast?.map (·.kind)
        return if behind.any (·.kind == .colon) && (last == some .ident || last == some .greater) then
          .initializer
        else .body
      | none => return .body
    | none =>
      let equals ← findTop ts .equals
      return if equals.isSome then .initializer
        else if scopeKeywords.any (first.isIdent ·) then .body
        else .initializer

/-! ### Enums and records -/

/-- The text behind the sign at a place, if the place is not the end. -/
def textBehind (ts : List Token) (sign : Nat) : Option (Option String) :=
  if sign < ts.length then do return some (← join (← slice? ts (sign + 1) ts.length)) else some none

def enumHead (ts : List Token) (hasBody : Bool) : Option Heading := do
  let isScoped := ts[1]?.any fun t => t.isIdent "class" || t.isIdent "struct"
  let start := if isScoped then 2 else 1
  let colon := (← findTop ts .colon).getD ts.length
  let words ← slice? ts (min start colon) colon
  let name := ((words.reverse.find? (·.kind == .ident)).map (·.text)).getD ""
  let underlying ← textBehind ts colon
  let signature ← join ts
  return { name, signature, item := .enumeration { isScoped, underlying, hasBody } }

def plainIdentsFrom (ts : List Token) (i angle : Nat) : List Token → Option (List Token)
  | [] => some []
  | t :: rest => do
    let idents ← plainIdentsFrom ts (i + 1) (← angleBehind ts i angle t) rest
    return if t.kind == .ident && angle == 0 && !t.isIdent "final" then t :: idents else idents

/-- The bases behind the colon at a place, if the place is not the end. -/
def bases (ts : List Token) (colon : Nat) : Option (List String) :=
  if colon < ts.length then do
    let parts ← commaParts (← slice? ts (colon + 1) ts.length)
    parts.mapM fun e => join e.2
  else some []

def recordHead (ts : List Token) (hasBody : Bool) : Option Head := do
  let colon := (← findTop ts .colon).getD ts.length
  let front ← slice? ts 0 colon
  let idents ← plainIdentsFrom ts 1 0 (front.drop 1)
  match idents.getLast? with
  | none => return .skip .anonymousRecord
  | some name =>
    let bases ← bases ts colon
    let keyword ← ts[0]?
    let signature ← join ts
    let shape : RecordShape :=
      { api := Head.nonEmpty? (" ".intercalate (idents.dropLast.map (·.text)))
        bases := bases.filter (!·.isEmpty)
        hasBody }
    let key := if keyword.isIdent "class" then RecordKey.classKey else .structKey
    return .declares ⟨name.text, signature, .record key shape⟩ []

/-! ### Declarators -/

theorem lt_of_lastPlace? {sought : α → Bool} {xs : List α} {i : Nat}
    (h : lastPlace? sought xs = some i) : i < xs.length := by
  unfold lastPlace? at h
  split at h
  · cases h
  · rename_i x before hdrop
    cases h
    have hlength := (List.dropWhile_sublist (l := xs.reverse) (!sought ·)).length_le
    rw [hdrop, List.length_cons, List.length_reverse] at hlength
    exact hlength

theorem length_of_slice? {xs ys : List α} {start stop : Nat} (h : slice? xs start stop = some ys) :
    ys.length = stop - start := by
  unfold slice? at h
  split at h
  · cases h
    rw [List.length_drop, List.length_take_of_le (by omega)]
  · cases h

/-- The place behind the declared name: array extents at the end are passed over. -/
def nameEnd (ts : List Token) (stop : Nat) : Option (Option Nat) :=
  if 0 < stop then do
    let t ← back? ts stop 1
    if t.kind = .rbracket then
      match _hfront : slice? ts 0 stop with
      | some front =>
        match _hplace : lastPlace? (·.kind == .lbracket) front with
        | some opening => nameEnd ts opening
        | none => return none
      | none => none
    else return some stop
  else some (some 0)
termination_by stop
decreasing_by
  have hlength := length_of_slice? _hfront
  have hless := lt_of_lastPlace? _hplace
  omega

/-- The place of the declared name. -/
def declaratorName (ts : List Token) : Option (Option Nat) := do
  match ← nameEnd ts ts.length with
  | some (i + 1) =>
    let t ← ts[i]?
    return if t.kind = .ident then some i else none
  | some 0 => return none
  | none => return none

/-! ### Functions -/

/-- Whether the identifier at a place is a parameter's name and not the end of its type. -/
def namesParam (decl : List Token) (i : Nat) : Option Bool :=
  if 0 < i then do
    let name ← decl[i]?
    if Head.builtinTypes.any (name.isIdent ·) then return false
    else
      let prev ← back? decl i 1
      return prev.kind != .scope
  else some false

/-- The place of a parameter's name. -/
def paramName (decl : List Token) : Option (Option Nat) := do
  match ← declaratorName decl with
  | some i => return if ← namesParam decl i then some i else none
  | none => return none

/-- The tokens in front of a default value, and its text. -/
def cutDefault (ts : List Token) : Option (List Token × Option String) := do
  match ← findTop ts .equals with
  | some eq => return (← slice? ts 0 eq, some (← join (← slice? ts (eq + 1) ts.length)))
  | none => return (ts, none)

def param (ts : List Token) (doc : Option DocBlock) : Option Param := do
  let (decl, default) ← cutDefault ts
  match ← paramName decl with
  | some i =>
    let name ← decl[i]?
    return ⟨some name.text, ← join (decl.eraseIdx i), default, doc⟩
  | none => return ⟨none, ← join decl, default, doc⟩

/-- Whether the only part is empty or the word for nothing. -/
def isVoid (parts : List (Nat × List Token)) : Option Bool :=
  if parts.length = 1 then do
    let only ← parts[0]?
    if only.2.isEmpty then return true
    else if only.2.length = 1 then return (← only.2[0]?).isIdent "void"
    else return false
  else some false

def paramsFrom (docs : List (Nat × DocBlock)) (opening close : Nat) (parts : List (Nat × List Token))
    (index : Nat) : List (Nat × List Token) → Option (List Param)
  | [] => some []
  | (offset, part) :: rest => do
    let start := opening + 1 + offset
    let stop := (parts[index + 1]?.map fun next => opening + 1 + next.1).getD close
    let doc := (docs.filter fun (at_, _) => start ≤ at_ && at_ < stop).getLast?.map Prod.snd
    let p ← param part doc
    let ps ← paramsFrom docs opening close parts (index + 1) rest
    return p :: ps

/-- The parameters between the parentheses at two places. -/
def params (ts : List Token) (opening close : Nat) (docs : List (Nat × DocBlock)) :
    Option (List Param) := do
  let inside ← slice? ts (opening + 1) close
  let parts ← commaParts inside
  if ← isVoid parts then return [] else paramsFrom docs opening close parts 0 parts

/-- A function's name, and the place where it starts. -/
def functionName (ts : List Token) (opening : Nat) : Option (Option (String × Nat)) := do
  let front ← slice? ts 0 opening
  match lastPlace? (·.isIdent "operator") front with
  | some keyword =>
    let words ← slice? ts keyword opening
    return some (String.join (words.map (·.text)), keyword)
  | none =>
    if opening = 0 then return none
    else
      let name ← back? ts opening 1
      if name.kind = .ident then
        if ← standsBack (·.kind == .tilde) ts opening 2 then
          return some ("~" ++ name.text, ← minus? opening 2)
        else return some (name.text, ← minus? opening 1)
      else return none

/-- The place behind the qualifiers, which follow the parenthesis at a place. -/
def qualifiersEnd (ts : List Token) (close : Nat) : Option Nat := do
  let behind ← slice? ts (close + 1) ts.length
  return ((behind.findIdx? (·.kind == .colon)).map (close + 1 + ·)).getD ts.length

def functionHead (s : Statement) (record : Option String) : Option Head := do
  let ts := s.tokens
  match ← findCall ts with
  | none => return .skip .statement
  | some opening =>
    match ← matching ts opening with
    | none => return .skip .unbalancedParameters
    | some close =>
      match ← functionName ts opening with
      | none => return .skip .callExpression
      | some (name, start) =>
        if ← standsBack (·.kind == .scope) ts start 1 then return .skip .outOfLine
        else
          let lead ← slice? ts 0 start
          let onlySpecifiers := lead.all fun t => Head.specifiers.any (t.isIdent ·)
          let special := onlySpecifiers && record == some (Head.constructed name)
          if onlySpecifiers && !special then return .skip .macroInvocation
          else
            let stop ← qualifiersEnd ts close
            let qualifiers ← join (← slice? ts (close + 1) stop)
            let signature ← join (← slice? ts 0 stop)
            let leadText ← join lead
            let params ← params ts opening close s.paramDocs
            return .declares
              { name
                signature
                item := .function
                  { lead := if lead.isEmpty then none else some leadText
                    params
                    qualifiers := Head.nonEmpty? qualifiers
                    special
                    hasBody := s.hasBody } }
              []

/-! ### Properties -/

/-- The text between the first and the last of the extents' signs, if there are extents behind
the name. -/
def arrayText (decl : List Token) (name : Nat) : Option (Option String) :=
  if name + 1 < decl.length then do
    let extents ← slice? decl (name + 1) decl.length
    return some (← join (← slice? extents 1 (← minus? extents.length 1)))
  else some none

/-- The place of an initializer, and its text. -/
def cutInitializer (ts : List Token) : Option (Nat × Option String) := do
  let brace ← findTop ts .lbrace
  let eq ← findTop ts .equals
  match eq, brace with
  | some eq, _ => return (eq, some (← join (← slice? ts (eq + 1) ts.length)))
  | none, some brace => return (brace, some (← join (← slice? ts brace ts.length)))
  | none, none => return (ts.length, none)

def property (base part : List Token) : Option (Option Heading) := do
  let ts := base ++ part
  let (stop, default) ← cutInitializer ts
  let colon ← findTop (← slice? ts 0 stop) .colon
  let decl ← slice? ts 0 (colon.getD stop)
  match ← declaratorName decl with
  | none => return none
  | some 0 => return none
  | some (i + 1) =>
    let array ← arrayText decl (i + 1)
    let front ← slice? decl 0 (i + 1)
    let type := front.filter (!·.isIdent "static")
    if type.isEmpty then return none
    else
      let name ← decl[i + 1]?
      return some
        { name := name.text
          signature := ← join ts
          item := .property
            { type := ← join type
              array
              default
              isStatic := front.any (·.isIdent "static") } }

/-- The heads of the further declarators. -/
def furtherHeads (base : List Token) : List (Nat × List Token) → Option (List Heading)
  | [] => some []
  | (_, part) :: parts => do
    let head ← property base part
    let heads ← furtherHeads base parts
    return head.toList ++ heads

def propertyHeads (ts : List Token) : Option Head := do
  let parts ← commaParts ts
  match parts.head? with
  | none => return .skip .statement
  | some (_, part) =>
    match ← property [] part with
    | none => return .skip .statement
    | some first =>
      let stop := (part.findIdx? (·.isIdent first.name)).getD 0
      let front ← slice? part 0 stop
      let base := (front.reverse.dropWhile (·.isPointer)).reverse
      return .declares first (← furtherHeads base (← slice? parts 1 parts.length))

/-! ### All of them -/

def classify (s : Statement) (record : Option String) : Option Head :=
  match s.tokens with
  | [] => some (.skip .statement)
  | first :: _ =>
    if first.isIdent "enum" then do return .declares (← enumHead s.tokens s.hasBody) []
    else if Head.recordKeywords.any (first.isIdent ·) && Head.isRecordHead s.tokens then
      recordHead s.tokens s.hasBody
    else do
      if (← findCall s.tokens).isSome then functionHead s record
      else if record.isSome && !s.hasBody then propertyHeads s.tokens
      else return .skip .statement

/-! ### Variants -/

/-- The text of the value behind a sign. -/
def valueText (head : List Token) : Option (Option String) :=
  match head.findIdx? (·.kind == .equals) with
  | some eq => do return some (← join (← slice? head (eq + 1) head.length))
  | none => some none

/-- A variant whose name, value and text stand in front of a place. -/
def variantUpTo (path : String) (doc : Option DocBlock) (name : Token) (reflection : Option Reflection)
    (ts : List Token) (stop : Nat) : Option Declaration := do
  let head ← slice? ts 0 stop
  let value ← valueText head
  return {
    name := name.text
    path := QualifiedPath.join path name.text
    line := name.line
    visibility := .everyone
    template := none
    reflection
    signature := ← join head
    doc
    item := .variant value
    synthetic := false
    members := [] }

/-- What the macro says, from the tokens behind its name. -/
def reflection (t : Token) (args : List Token) : Option (Except Fault Reflection) :=
  let flawed (flaw : MetadataFlaw) : Fault := ⟨t.line, .malformedMetadata EnumBody.metaMacro flaw⟩
  if args.head?.any (·.kind == .lparen) && args.getLast?.any (·.kind == .rparen) then do
    let inside ← slice? args 1 (← minus? args.length 1)
    match Metadata.read inside with
    | .ok metadata => return .ok ⟨EnumBody.metaMacro, metadata, t.line⟩
    | .error flaw => return .error (flawed flaw)
  else some (.error (flawed .noArguments))

def variant (path : String) (doc : Option DocBlock) (ts : List Token) :
    Option (Except Fault (Option Declaration)) :=
  match ts.head?.filter (·.kind == .ident) with
  | none => some (.ok none)
  | some name =>
    match ts.findIdx? (·.isIdent EnumBody.metaMacro) with
    | none => do return .ok (some (← variantUpTo path doc name none ts ts.length))
    | some place => do
      let t ← ts[place]?
      let args ← slice? ts (place + 1) ts.length
      match ← reflection t args with
      | .ok r => return .ok (some (← variantUpTo path doc name (some r) ts place))
      | .error fault => return .error fault

end AnnotatedHeader.ByPlace
