import ProjectFile.Xml.Namespace

/-!
From a text to a document. Before and after the root element only comments, instructions and white
space may stand. Content is read item by item until the end tag of the element around it; the
amount of text left bounds the number of items.
-/

namespace ProjectFile.Xml

namespace Cursor

/-- The optional declaration at the very start: a version, an encoding, a standalone flag. -/
def declaration (c : Cursor) : Except Error Cursor := do
  let c ← (c.drop 5).spaceInDeclaration
  if !c.looksAt "version" then .error (.expectedText "version" c.position)
  else
    let (_, c) ← c.rawAttribute
    let c ← c.spaceInDeclaration
    let c ← if c.looksAt "encoding" then do
        let (_, c) ← c.rawAttribute
        c.spaceInDeclaration
      else .ok c
    let c ← if c.looksAt "standalone" then do
        let (_, c) ← c.rawAttribute
        .ok c
      else .ok c
    c.skipSpaces.expectText "?>"

/-- A comment, which may neither contain two dashes in a row nor end in a third. -/
def comment (c : Cursor) : Except Error (Node × Cursor) := do
  let (content, rest) ← (c.drop 4).takeUntil fun t => t.startsWith "-->"
  let rest ← rest.expectText "-->"
  if Text.occursIn "--" content || Text.endsWith content "-" then
    .error (.dashesInComment c.position)
  else .ok (.comment content, rest)

def instruction (c : Cursor) : Except Error (Node × Cursor) := do
  if c.looksAt "<?xml " then .error (.misplacedDeclaration c.position)
  else
    let (target, rest) ← (c.drop 2).plainName
    let (content, rest) ← rest.skipSpaces.takeUntil fun t => t.startsWith "?>"
    let rest ← rest.expectText "?>"
    .ok (.instruction target content, rest)

/-- A section whose text is taken literally. -/
def rawSection (c : Cursor) : Except Error (Node × Cursor) := do
  let (content, rest) ← (c.drop 9).takeUntil fun t => t.startsWith "]]>"
  let rest ← rest.expectText "]]>"
  .ok (.text (plainLineEnds content), rest)

/-- A run of text up to the next `<`. -/
def textRun (c : Cursor) : Except Error (Node × Cursor) := do
  let (run, rest) ← c.takeUntil fun t => t.startsWith "<"
  if Text.occursIn "]]>" run then .error (.sectionEndInText rest.position)
  else
    let ps ← pieces c.position run
    .ok (.text (lineEnds false ps), rest)

def endTag (c : Cursor) : Except Error (QName × Cursor) := do
  let (name, rest) ← (c.drop 2).qname
  let rest ← rest.skipSpaces.expect '>'
  .ok (name, rest)

/-- The rest of a start tag after its name, with whether the element has content. The first
argument bounds the number of attributes, and `cut` is the error for a text that ends between
them. -/
def tagRest (cut : Error) : Nat → StartTag → Cursor → Except Error (StartTag × Bool × Cursor)
  | 0, _, _ => .error cut
  | n + 1, tag, c =>
    match c.rest with
    | [] => .error cut
    | _ :: _ =>
      let next := c.skipSpaces
      match next.rest with
      | [] => .error .unexpectedEnd
      | '/' :: _ => do
        let rest ← (next.drop 1).expect '>'
        .ok (tag, false, rest)
      | '>' :: _ => .ok (tag, true, next.drop 1)
      | x :: _ =>
        if c.atSpace then do
          let (raw, rest) ← next.rawAttribute
          let tag ← tag.add raw
          tagRest cut n tag rest
        else .error (.expectedSpace (Text.firstByte x) next.position)

def startTag (cut : Error) (c : Cursor) : Except Error (StartTag × Bool × Cursor) := do
  let (name, rest) ← (c.drop 1).qname
  let tag ← StartTag.opened name c.position
  tagRest cut rest.rest.length tag rest

/-- The content of the element `opened` up to its end tag, and the cursor after that. The first
argument bounds the number of items. -/
def content : Nat → Scope → QName → Cursor → Except Error (List Node × Cursor)
  | 0, _, _, _ => .error .unclosedRoot
  | n + 1, scope, opened, c =>
    match c.rest with
    | [] => .error .unclosedRoot
    | ['<'] => .error (.unknownToken c.position)
    | '<' :: '/' :: _ => do
      let (closed, rest) ← c.endTag
      if closed = opened then .ok ([], rest)
      else .error (.mismatchedTag opened.text closed.text c.position)
    | '<' :: '!' :: _ =>
      if c.looksAt "<!--" then do
        let (node, rest) ← c.comment
        let (nodes, rest) ← content n scope opened rest
        .ok (node :: nodes, rest)
      else if c.looksAt "<![CDATA[" then do
        let (node, rest) ← c.rawSection
        let (nodes, rest) ← content n scope opened rest
        .ok (node :: nodes, rest)
      else .error (.unknownToken c.position)
    | '<' :: '?' :: _ => do
      let (node, rest) ← c.instruction
      let (nodes, rest) ← content n scope opened rest
      .ok (node :: nodes, rest)
    | '<' :: _ => do
      let (start, hasContent, rest) ← c.startTag .unclosedRoot
      let tag ← start.finish scope
      let (children, rest) ←
        if hasContent then content n (start.scope scope) start.name rest else .ok ([], rest)
      let (nodes, rest) ← content n scope opened rest
      .ok (.element tag children :: nodes, rest)
    | _ => do
      let (node, rest) ← c.textRun
      let (nodes, rest) ← content n scope opened rest
      .ok (node :: nodes, rest)

def rootElement (c : Cursor) : Except Error (Element × Cursor) := do
  let (start, hasContent, rest) ← c.startTag .noRoot
  let tag ← start.finish []
  let (children, rest) ←
    if hasContent then content rest.rest.length (start.scope []) start.name rest
    else .ok ([], rest)
  .ok (⟨tag, children⟩, rest)

/-- White space, comments and instructions outside the root element; the first argument bounds
their number. -/
def misc : Nat → Cursor → Except Error Cursor
  | 0, c => .ok c.skipSpaces
  | n + 1, c =>
    let c := c.skipSpaces
    if c.looksAt "<!--" then do
      let (_, rest) ← c.comment
      misc n rest
    else if c.looksAt "<?" then do
      let (_, rest) ← c.instruction
      misc n rest
    else .ok c

end Cursor

/-- A document, of which only the root element matters. -/
structure Document where
  root : Element

/-- The document that a text is. A byte-order mark may come first. -/
def Document.parse (text : Text) : Except Error Document := do
  let c := Cursor.ofText text
  let c := if c.looksAt ['\uFEFF'] then c.drop 1 else c
  let c ← if c.looksAt "<?xml " then c.declaration else .ok c
  let c ← c.misc c.rest.length
  if c.looksAt "<!DOCTYPE" then .error .doctype
  else
    let (root?, c) ← if c.looksAt "<" then do
        let (root, rest) ← c.rootElement
        .ok (some root, rest)
      else .ok (none, c)
    let c ← c.misc c.rest.length
    if !c.rest.isEmpty then .error (.unknownToken c.position)
    else
      match root? with
      | none => .error .noRoot
      | some root => .ok ⟨root⟩

end ProjectFile.Xml
