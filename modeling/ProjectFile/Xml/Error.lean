import ProjectFile.Text.Quoted
import ProjectFile.Xml.Basic

/-!
The reasons for which a text is not a document, each with the place where it shows, and the words
that tell them.
-/

namespace ProjectFile.Xml

inductive Error where
  | doctype
  | noRoot
  | unclosedRoot
  | unexpectedEnd
  | invalidName (place : Position)
  | unknownToken (place : Position)
  | expectedByte (expected actual : Char) (place : Position)
  | expectedSpace (actual : Char) (place : Position)
  | expectedQuote (actual : Char) (place : Position)
  | expectedText (expected : Text) (place : Position)
  | misplacedDeclaration (place : Position)
  | dashesInComment (place : Position)
  | sectionEndInText (place : Position)
  | illegalCharacter (actual : Char) (place : Position)
  | malformedReference (place : Position)
  | unknownEntity (name : Text) (place : Position)
  | mismatchedTag (opened closed : Text) (place : Position)
  | repeatedAttribute (name : Text) (place : Position)
  | unknownPrefix (label : Text) (place : Position)
  | repeatedPrefix (label : Text) (place : Position)
  | xmlPrefixBoundElsewhere (place : Position)
  | xmlUriBoundElsewhere (place : Position)
  | xmlnsUriBound (place : Position)
  | xmlnsPrefixUsed (place : Position)
deriving DecidableEq

def Error.message : Error → Text
  | .doctype => "XML with DTD detected"
  | .noRoot => "the document does not have a root node"
  | .unclosedRoot => "the root node was opened but never closed"
  | .unexpectedEnd => "unexpected end of stream"
  | .invalidName p => "invalid name token at " ++ p.text
  | .unknownToken p => "unknown token at " ++ p.text
  | .expectedByte x y p => "expected '" ++ [x] ++ "' not '" ++ [y] ++ "' at " ++ p.text
  | .expectedSpace y p => "expected a whitespace not '" ++ [y] ++ "' at " ++ p.text
  | .expectedQuote y p => "expected a quote not '" ++ [y] ++ "' at " ++ p.text
  | .expectedText t p => "expected '" ++ t ++ "' at " ++ p.text
  | .misplacedDeclaration p => "unexpected XML declaration at " ++ p.text
  | .dashesInComment p => "comment at " ++ p.text ++ " contains '--'"
  | .sectionEndInText p =>
    "']]>' at " ++ p.text ++ " is not allowed inside a character data"
  | .illegalCharacter c p =>
    "a non-XML character " ++ Text.quotedSingle c ++ " found at " ++ p.text
  | .malformedReference p => "malformed entity reference at " ++ p.text
  | .unknownEntity name p => "unknown entity reference '" ++ name ++ "' at " ++ p.text
  | .mismatchedTag opened closed p =>
    "expected '" ++ opened ++ "' tag, not '" ++ closed ++ "' at " ++ p.text
  | .repeatedAttribute name p =>
    "attribute '" ++ name ++ "' at " ++ p.text ++ " is already defined"
  | .unknownPrefix label p =>
    "an unknown namespace prefix '" ++ label ++ "' at " ++ p.text
  | .repeatedPrefix label p =>
    "namespace '" ++ label ++ "' at " ++ p.text ++ " is already defined"
  | .xmlPrefixBoundElsewhere p =>
    "'xml' namespace prefix mapped to wrong URI at " ++ p.text
  | .xmlUriBoundElsewhere p =>
    "the 'xml' namespace URI is used for not 'xml' prefix at " ++ p.text
  | .xmlnsUriBound p =>
    "the 'xmlns' URI is used at " ++ p.text ++ ", but it must not be declared"
  | .xmlnsPrefixUsed p =>
    "the 'xmlns' prefix is used at " ++ p.text ++ ", but it must not be"

end ProjectFile.Xml
