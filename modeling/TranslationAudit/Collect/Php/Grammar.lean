import TranslationAudit.Collect.Php.Rule

/-! # The grammar of PHP

Precedence of operators is left out: a chain of operands and operators is read from left to right,
which finds the same operands. What the grammar keeps apart is what makes a text a program or not,
and the parts in which calls and literals stand.

* `Construct`: the named rules.
* `grammar`: what each of them is.
* `program?`: the tree of a token list that is a program.
-/

namespace TranslationAudit.Php

open Rule

/-- The named rules of the grammar. -/
inductive Construct where
  | statement
  | block
  | condition
  | expression
  | operand
  | primary
  | name
  | array
  | listPattern
  | arrayPattern
  | arguments
  | parameters
  | typeName
  | attributes
  | classBody
  | memberName
  | classReference
  | dynamicVariable
  | insert

namespace Grammar

abbrev Part := Rule Construct

/-! ## Words -/

def statementWords : List String :=
  ["if", "switch", "while", "do", "for", "foreach", "goto", "continue", "break", "return", "try",
   "declare", "echo", "exit", "unset", "const", "class", "interface", "trait", "enum", "abstract",
   "final", "readonly", "use", "global"]

/-- Words that begin an expression of their own and so are no names there. -/
def expressionWords : List String :=
  ["clone", "print", "yield", "include", "include_once", "require", "require_once", "new",
   "function", "fn", "static", "throw", "match", "list", "array", "namespace", "self", "parent"]

def castTypes : List String :=
  ["array", "binary", "bool", "boolean", "double", "int", "integer", "float", "object", "real",
   "string", "unset"]

def visibilities : List String := ["public", "protected", "private"]

/-- The words before a member of a class that say nothing about who may see it. -/
def otherModifiers : List String := ["var", "static", "final", "abstract", "readonly"]

def binaryOperators : List String :=
  ["??", "**", "||", "&&", "|", "^", "&", "==", "!=", "<>", "===", "!==", "<", ">", "<=", ">=",
   "<=>", "<<", ">>", "+", "-", ".", "*", "/", "%"]

def augmentedAssignments : List String :=
  ["**=", "*=", "/=", "%=", "+=", "-=", ".=", "<<=", ">>=", "&=", "^=", "|=", "??="]

/-! ## Small parts -/

def part (rules : List Part) : Part := node .other (all rules)

def expression : Part := ref .expression

def anyVariable : Part := ofKind .variable

def reference : Part := part [symbol "&", ref .operand]

def parenthesized : Part := part [symbol "(", expression, symbol ")"]

def statements (closing : List String) : Part :=
  many (seq (notAhead (wordIn closing)) (ref .statement))

/-- A name without its meaning: any words with backslashes between. -/
def qualified : Part :=
  all [optional (symbol "\\"), anyWord, many (seq (symbol "\\") anyWord)]

def initializer : Part := optional (seq (symbol "=") expression)

def constantElements : Part := commas (all [anyWord, symbol "=", expression])

def constants : Part :=
  all [word "const", alt constantElements (seq (ref .typeName) constantElements), semicolon]

def returnType : Part := optional (seq (symbol ":") (ref .typeName))

def signature : Part := seq (ref .parameters) returnType

def extension : Part := optional (seq (word "extends") (commas qualified))

def interfaces : Part := optional (seq (word "implements") (commas qualified))

/-! ## Statements -/

def bodyOr (closing : String) : Part :=
  alt (all [symbol ":", statements [closing], word closing, semicolon]) (ref .statement)

def ifStatement : Part :=
  all [word "if", ref .condition,
    alt
      (all [symbol ":", statements ["elseif", "else", "endif"],
        many (all [word "elseif", ref .condition, symbol ":",
          statements ["elseif", "else", "endif"]]),
        optional (all [word "else", symbol ":", statements ["endif"]]),
        word "endif", semicolon])
      (all [ref .statement,
        many (all [word "elseif", ref .condition, ref .statement]),
        optional (all [word "else", ref .statement])])]

def cases (closing : List String) : Part :=
  let body := seq (symbolIn [":", ";"]) (statements (["case", "default"] ++ closing))
  many (alt (all [word "case", expression, body]) (seq (word "default") body))

def switchStatement : Part :=
  all [word "switch", ref .condition,
    alt (all [symbol "\x7b", cases [], symbol "\x7d"])
      (all [symbol ":", cases ["endswitch"], word "endswitch", semicolon])]

def forStatement : Part :=
  let clause := optional (commas expression)
  all [word "for", symbol "(", clause, symbol ";", clause, symbol ";", clause, symbol ")",
    bodyOr "endfor"]

def foreachStatement : Part :=
  let target := first [reference, ref .listPattern, expression, ref .arrayPattern]
  all [word "foreach", symbol "(", expression, word "as",
    alt (all [expression, symbol "=>", target]) target, symbol ")", bodyOr "endforeach"]

def tryStatement : Part :=
  let handler := all [word "catch", symbol "(", qualified, many (seq (symbol "|") qualified),
    optional anyVariable, symbol ")", ref .block]
  let ending := alt handler (seq (word "finally") (ref .block))
  all [word "try", ref .block, ending, many ending]

def declareStatement : Part :=
  let directive := all [anyWord, symbol "=", ref .primary]
  all [word "declare", symbol "(", commas directive, symbol ")",
    first [all [symbol ":", statements ["enddeclare"], word "enddeclare", semicolon], semicolon,
      ref .statement]]

def functionDefinition : Part :=
  all [ref .attributes, word "function", optional (symbol "&"), anyWord, signature, ref .block]

def classDefinition : Part :=
  all [ref .attributes, many (wordIn ["abstract", "final", "readonly"]), word "class", anyWord,
    extension, interfaces, ref .classBody]

def otherDefinition : Part :=
  all [ref .attributes,
    first [
      all [word "interface", anyWord, extension, ref .classBody],
      all [word "trait", anyWord, ref .classBody],
      all [word "enum", anyWord, returnType, interfaces, ref .classBody]]]

def namespaceDefinition : Part :=
  seq (word "namespace") (alt (seq qualified semicolon) (seq (optional qualified) (ref .block)))

def useDeclaration : Part :=
  let kind := optional (wordIn ["function", "const"])
  let clause := seq qualified (optional (seq (word "as") anyWord))
  let group := all [symbol "\\", symbol "\x7b", commas (alt (seq kind clause) clause),
    optional (symbol ","), symbol "\x7d"]
  let body := alt (seq qualified group) (commas clause)
  all [word "use", alt (seq kind body) body, semicolon]

def staticDeclaration : Part :=
  all [word "static", commas (seq anyVariable initializer), semicolon]

/-- A statement, chosen by the word it begins with where there is one. -/
def statement : Part :=
  part [first [
    symbol ";",
    ref .block,
    seq (wordNotIn (statementWords ++ expressionWords)) (symbol ":"),
    ifStatement,
    switchStatement,
    all [word "while", ref .condition, bodyOr "endwhile"],
    all [word "do", ref .statement, word "while", ref .condition, semicolon],
    forStatement,
    foreachStatement,
    all [word "goto", anyWord, semicolon],
    all [wordIn ["continue", "break", "return"], optional expression, semicolon],
    tryStatement,
    declareStatement,
    all [word "echo", commas expression, semicolon],
    all [word "exit", optional (all [symbol "(", optional expression, symbol ")"]), semicolon],
    all [word "unset", symbol "(", commas (ref .operand), optional (symbol ","), symbol ")",
      semicolon],
    all [word "const", constantElements, semicolon],
    functionDefinition,
    classDefinition,
    otherDefinition,
    namespaceDefinition,
    useDeclaration,
    all [word "global", commas (alt anyVariable (ref .dynamicVariable)), semicolon],
    staticDeclaration,
    all [notAhead (wordIn statementWords), expression, semicolon]]]

/-! ## Classes -/

def traitUse : Part :=
  let method := seq qualified (optional (seq (symbol "::") anyWord))
  let adaptation := all [method,
    alt (seq (word "insteadof") (commas qualified))
      (seq (word "as") (alt (seq (wordIn visibilities) (optional anyWord)) anyWord)),
    semicolon]
  all [word "use", commas qualified,
    alt (all [symbol "\x7b", many adaptation, symbol "\x7d"]) semicolon]

def visibility : Part :=
  seq (wordIn visibilities) (optional (all [symbol "(", word "set", symbol ")"]))

def modifier : Part := alt (wordIn otherModifiers) visibility

/-- The code that reads or writes a property. -/
def propertyHooks : Part :=
  let body := first [all [symbol "=>", expression, semicolon], ref .block, semicolon]
  let hook := all [ref .attributes, optional (word "final"), optional (symbol "&"), anyWord,
    optional (ref .parameters), body]
  all [symbol "\x7b", many hook, symbol "\x7d"]

def classMember : Part :=
  first [
    traitUse,
    all [ref .attributes, many modifier,
      first [
        constants,
        all [word "function", optional (symbol "&"), anyWord, signature,
          alt (ref .block) semicolon],
        all [word "case", anyWord, initializer, semicolon]]],
    all [ref .attributes, modifier, many modifier, optional (ref .typeName),
      commas (seq anyVariable initializer), alt semicolon propertyHooks]]

def parameter : Part :=
  all [ref .attributes, many (alt (word "readonly") visibility), optional (ref .typeName),
    optional (symbol "&"), optional (symbol "..."), anyVariable, initializer,
    optional propertyHooks]

/-! ## Expressions -/

def assignable : Tree → Bool
  | .leaf t => t.kind = .variable
  | .node .scoped (_ :: _ :: .leaf t :: rest) => t.kind = .variable || !rest.isEmpty
  | .node k _ =>
    k ∈ [.scoped, .member, .call, .subscript, .dynamicVariable, .array]

def assignmentSuffix (t : Tree) : Part :=
  if assignable t then
    seq adjacent (first [
      part [symbol "=", optional (symbol "&"), expression],
      part [symbolIn augmentedAssignments, expression],
      part [symbolIn ["++", "--"]]])
  else never

/-- The suffixes that reach into a value: members, subscripts and calls. -/
def accessSuffix (t : Tree) : Part :=
  seq adjacent (first [
    node .member (all [symbolIn ["->", "?->"], ref .memberName, optional (ref .arguments)]),
    node .scoped (all [symbol "::", ref .memberName, optional (ref .arguments)]),
    node .call (ref .arguments),
    node .subscript (all [symbol "[", optional expression, symbol "]"]),
    if t.kind? = some .name then never
    else node .subscript (all [symbol "\x7b", expression, symbol "\x7d"])])

def operatorSuffix (_ : Tree) : Part :=
  seq adjacent (first [
    part [symbolIn binaryOperators, ref .operand],
    part [wordIn ["and", "or", "xor"], ref .operand],
    part [word "instanceof", ref .classReference],
    part [symbol "?", optional expression, symbol ":", ref .operand]])

def closure : Part :=
  part [ref .attributes, optional (word "static"),
    alt
      (all [word "fn", optional (symbol "&"), signature, symbol "=>", expression])
      (all [word "function", optional (symbol "&"), ref .parameters,
        optional (all [word "use", symbol "(", commas (seq (optional (symbol "&")) anyVariable),
          optional (symbol ","), symbol ")"]),
        returnType, ref .block])]

/-- A new object that is complete, so that its members can be reached. -/
def completeCreation : Part :=
  part [word "new",
    alt
      (all [ref .attributes, optional (word "readonly"), word "class", optional (ref .arguments),
        extension, interfaces, ref .classBody])
      (seq (ref .classReference) (ref .arguments))]

/-- A new object without arguments. -/
def bareCreation : Part := part [word "new", ref .classReference]

def matchExpression : Part :=
  let arm := alt
    (all [word "default", optional (symbol ","), symbol "=>", expression])
    (all [notAhead (word "default"), commas expression, optional (symbol ","), symbol "=>",
      expression])
  part [word "match", ref .condition, symbol "\x7b", commas arm, optional (symbol ","),
    symbol "\x7d"]

def yieldExpression : Part :=
  part [word "yield", alt (seq (word "from") expression)
    (seq (notAhead (word "from"))
      (optional (seq expression (optional (seq (symbol "=>") expression)))))]

def operand : Part :=
  first [
    part [symbolIn ["+", "-", "~", "!", "@", "++", "--"], ref .operand],
    part [symbol "(", wordIn castTypes, symbol ")", ref .operand],
    part [word "clone", ref .operand],
    part [wordIn ["print", "include", "include_once", "require", "require_once", "throw"],
      expression],
    yieldExpression,
    matchExpression,
    closure,
    part [ref .listPattern, symbol "=", optional (symbol "&"), expression],
    chain (ref .primary) assignmentSuffix,
    bareCreation,
    part [ref .arrayPattern, symbol "=", optional (symbol "&"), expression]]

def template (kind : PartKind) (opening : TokenKind) : Part :=
  node kind (all [ofKind opening, many (ref .insert), ofKind .templateClose])

def primary : Part :=
  first [
    chain
      (first [
        anyVariable,
        ref .dynamicVariable,
        ofKind .quoted,
        ofKind .nowdoc,
        template .template .templateOpen,
        template .other .blockOpen,
        parenthesized,
        completeCreation,
        ref .array,
        ref .name])
      accessSuffix,
    ofKind .number]

def name : Part :=
  node .name (first [
    seq (wordIn ["static", "self", "parent"]) (notAhead (notAhead (symbol "::"))),
    all [word "namespace", symbol "\\", qualified],
    seq (symbol "\\") qualified,
    all [wordNotIn expressionWords, many (seq (symbol "\\") anyWord)]])

def arrayElement : Part :=
  node .element (first [
    part [symbol "...", expression],
    reference,
    seq expression (optional (seq (symbol "=>") (alt reference expression))),
    ref .listPattern])

def patternItems : Part :=
  let target := first [reference, ref .listPattern, ref .operand, ref .arrayPattern]
  let item := optional (first [reference, ref .listPattern,
    seq expression (optional (seq (symbol "=>") target)), ref .arrayPattern])
  seq item (many (seq (symbol ",") item))

def argument : Part :=
  node .argument (all [optional (seq anyWord (symbol ":")), optional (symbol "&"),
    alt (part [symbol "...", expression]) expression])

/-- Code within a string: an expression in braces, or a variable with one subscript or property. -/
def insert : Part :=
  first [
    part [symbol "\x7b", expression, symbol "\x7d"],
    part [symbol "$\x7b", expression, symbol "\x7d"],
    part [anyVariable, optional (alt
      (seq (symbol "->") anyWord)
      (all [symbol "[", optional (symbol "-"), first [ofKind .number, anyWord, anyVariable],
        symbol "]"]))]]

def typeName : Part :=
  let atom := alt (all [symbol "(", ref .typeName, symbol ")"]) qualified
  alt (seq (symbol "?") qualified) (seq atom (many (seq (symbolIn ["|", "&"]) atom)))

def classReference : Part :=
  let suffix := seq adjacent (first [
    part [symbolIn ["->", "?->"], ref .memberName],
    part [symbol "::", anyVariable],
    part [symbol "[", optional expression, symbol "]"]])
  first [parenthesized,
    chain (first [anyVariable, ref .dynamicVariable, part [qualified, symbol "::", anyVariable]])
      fun _ => suffix,
    node .name qualified]

end Grammar

open Grammar in
def grammar : Construct → Rule Construct
  | .statement => statement
  | .block => part [symbol "\x7b", statements [], symbol "\x7d"]
  | .condition => parenthesized
  | .expression => chain (ref .operand) operatorSuffix
  | .operand => operand
  | .primary => primary
  | .name => name
  | .array => node .array (alt
      (all [symbol "[", commaList arrayElement, symbol "]"])
      (all [word "array", symbol "(", commaList arrayElement, symbol ")"]))
  | .listPattern => node .listPattern
      (all [word "list", symbol "(", patternItems, symbol ")"])
  | .arrayPattern => node .listPattern (all [symbol "[", patternItems, symbol "]"])
  | .arguments => node .arguments (alt
      (all [symbol "(", symbol "...", symbol ")"])
      (all [symbol "(", commaList argument, symbol ")"]))
  | .parameters => all [symbol "(", commaList parameter, symbol ")"]
  | .typeName => typeName
  | .attributes => many (all [symbol "#[", commas (seq qualified (optional (ref .arguments))),
      optional (symbol ","), symbol "]"])
  | .classBody => part [symbol "\x7b", many classMember, symbol "\x7d"]
  | .memberName => first [anyWord, anyVariable, ref .dynamicVariable,
      all [symbol "\x7b", expression, symbol "\x7d"]]
  | .classReference => classReference
  | .dynamicVariable => node .dynamicVariable (seq (symbol "$") (first [
      all [symbol "\x7b", expression, symbol "\x7d"], anyVariable, ref .dynamicVariable]))
  | .insert => insert

def program? (ts : List Token) : Option Tree :=
  match run grammar (200 * (ts.length + 1)) (Grammar.statements []) ts with
  | none => none
  | some (trees, rest) => if (dropTags rest).isEmpty then some (.node .other trees) else none

end TranslationAudit.Php
