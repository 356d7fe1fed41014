import FuncSpans.Go.Token

/-!
# The grammar of Go files

A file is a sequence of items. Each `Phrase` has its rules, written with `*` for sequence and
`+` for choice; the phrases called `more…` are the tails of lists. A production carries a
level and an associativity, by which a parser chooses between going on with a phrase and
ending one, and it may say which of its symbols names the phrase.

The grammar is more liberal than the language: a statement may stand wherever a declaration
may, and `package` and `import` may stand anywhere.
-/

namespace FuncSpans.Go

/-- The phrases of the grammar. -/
inductive Phrase where
  | item
  | packageClause
  | importDeclaration
  | importSpec
  | importDot
  | importSpecList
  | moreImports
  | declaration
  | constDeclaration
  | constSpecs
  | constSpec
  | moreConstNames
  | varDeclaration
  | varSpec
  | varSpecList
  | varSpecs
  | moreNames
  | functionDeclaration
  | methodDeclaration
  | typeParameterList
  | moreTypeParameters
  | typeParameter
  | parameterList
  | moreParameters
  | parameter
  | variadicParameter
  | typeDeclaration
  | moreTypeSpecs
  | typeAlias
  | typeSpec
  | expressionList
  | moreExpressions
  | simpleType
  | parenthesizedType
  | genericType
  | typeArguments
  | moreTypeArguments
  | pointerType
  | arrayType
  | countedArrayType
  | sliceType
  | structType
  | negatedType
  | fieldList
  | moreFields
  | field
  | moreFieldNames
  | interfaceType
  | moreInterfaceElements
  | methodElement
  | typeElement
  | moreTypeTerms
  | mapType
  | channelType
  | functionType
  | qualifiedType
  | block
  | statementList
  | moreStatements
  | statement
  | emptyStatement
  | simpleStatement
  | expressionStatement
  | sendStatement
  | receiveStatement
  | incrementStatement
  | decrementStatement
  | assignment
  | shortDeclaration
  | labeledStatement
  | bareLabel
  | fallthroughStatement
  | breakStatement
  | gotoStatement
  | returnStatement
  | goStatement
  | ifStatement
  | forStatement
  | forClause
  | rangeClause
  | expressionSwitch
  | moreExpressionCases
  | expressionCase
  | defaultCase
  | typeSwitch
  | typeSwitchHeader
  | moreTypeCases
  | typeCase
  | moreTypes
  | selectStatement
  | moreSelectCases
  | selectCase
  | expression
  | parenthesizedExpression
  | callExpression
  | variadicArgument
  | allocatorArguments
  | argumentList
  | moreArguments
  | selectorExpression
  | indexExpression
  | sliceExpression
  | typeAssertion
  | conversion
  | instantiation
  | compositeLiteral
  | literalValue
  | moreElements
  | literalElement
  | keyedElement
  | functionLiteral
  | unaryExpression
  | binaryExpression
  | rawString
  | quotedString
  | stringParts
  | file
  | fileItems
  deriving DecidableEq, Repr

/-- A terminal or a phrase. -/
inductive Symbol where
  | token (t : Token)
  | phrase (p : Phrase)
  deriving DecidableEq, Repr

/-- Which operand a chain of equal operators leans to. -/
inductive Assoc where
  | left
  | right
  deriving DecidableEq, Repr

/-- One way to build a phrase. -/
structure Production where
  phrase : Phrase
  /-- The place of this production among those of its phrase. -/
  index : Nat
  symbols : List Symbol
  level : Int
  assoc : Option Assoc
  /-- The place of the symbol that names the phrase, if one does. -/
  namedBy : Option Nat

/-- Sequences of symbols to choose from. -/
structure Forms where
  choices : List (List Symbol)

namespace Forms

instance : Mul Forms := ⟨fun f g => ⟨f.choices.flatMap fun x => g.choices.map (x ++ ·)⟩⟩

instance : Add Forms := ⟨fun f g => ⟨f.choices ++ g.choices⟩⟩

def nothing : Forms := ⟨[[]]⟩

/-- The forms or nothing. -/
def opt (f : Forms) : Forms := f + nothing

/-- A choice of tokens. -/
def oneOf (ts : List Token) : Forms := ⟨ts.map fun t => [.token t]⟩

end Forms

/-- What a phrase can be, before its productions are numbered. -/
structure Rule where
  forms : Forms
  level : Int
  assoc : Option Assoc
  namedBy : Option Nat

namespace Grammar

open Forms

def t (x : Token) : Forms := ⟨[[.token x]]⟩

def p (x : Phrase) : Forms := ⟨[[.phrase x]]⟩

def plain (f : Forms) : List Rule := [⟨f, 0, none, none⟩]

def named (i : Nat) (f : Forms) : List Rule := [⟨f, 0, none, some i⟩]

def level (n : Int) (f : Forms) : List Rule := [⟨f, n, none, none⟩]

def left (n : Int) (f : Forms) : List Rule := [⟨f, n, some .left, none⟩]

def right (n : Int) (f : Forms) : List Rule := [⟨f, n, some .right, none⟩]

/-- A declaration that goes on as far as it can and is named by its `i`th symbol. -/
def declares (i : Nat) (f : Forms) : List Rule := [⟨f, 1, some .right, some i⟩]

/-- The tail of a list: one or more times the same forms. -/
def tail (x : Phrase) (f : Forms) : List Rule := plain (p x * f + f)

def ident : Forms := t .identifier

/-- What ends an item: a line feed, a NUL or a semicolon. -/
def terminator : Forms := t .newline + t .semicolon

def aType : Forms := p .simpleType + p .parenthesizedType

def aString : Forms := p .rawString + p .quotedString

/-- The result of a function. -/
def result : Forms := opt (p .parameterList + p .simpleType)

def expr : Forms := p .expression

/-- The items that may end a file without a terminator. -/
def fileDeclaration : Forms :=
  p .packageClause + p .functionDeclaration + p .methodDeclaration + p .importDeclaration

def interfaceElement : Forms := p .methodElement + p .typeElement

/-- Levels of expressions, the tightest highest. -/
def primary : Int := 7
def unary : Int := 6
def multiplicative : Int := 5
def additive : Int := 4
def comparative : Int := 3
def conjunctive : Int := 2
def disjunctive : Int := 1
def composite : Int := -1

/-- The rules of a phrase. -/
def rules : Phrase → List Rule
  | .item => plain (
      (p .statement + fileDeclaration) * terminator + fileDeclaration * t .endOfFile +
      t .endOfFile)
  | .packageClause => named 1 (t .kwPackage * ident)
  | .importDeclaration => plain (t .kwImport * (p .importSpec + p .importSpecList))
  | .importSpec => plain (opt (p .importDot + ident) * aString)
  | .importDot => plain (t .dot)
  | .importSpecList => plain (
      t .leftParen * opt (p .importSpec * opt (p .moreImports) * opt terminator) * t .rightParen)
  | .moreImports => tail .moreImports (terminator * p .importSpec)
  | .declaration => plain (p .constDeclaration + p .typeDeclaration + p .varDeclaration)
  | .constDeclaration => plain (
      t .kwConst * (p .constSpec + t .leftParen * opt (p .constSpecs) * t .rightParen))
  | .constSpecs => tail .constSpecs (p .constSpec * terminator)
  | .constSpec => left 0 (
      ident * opt (p .moreConstNames) * opt (opt aType * t .assign * p .expressionList))
  | .moreConstNames => tail .moreConstNames (t .comma * ident)
  | .varDeclaration => plain (t .kwVar * (p .varSpec + p .varSpecList))
  | .varSpec => plain (
      ident * opt (p .moreNames) *
        (aType * opt (t .assign * p .expressionList) + t .assign * p .expressionList))
  | .varSpecList => plain (t .leftParen * opt (p .varSpecs) * t .rightParen)
  | .varSpecs => tail .varSpecs (p .varSpec * terminator)
  | .moreNames => tail .moreNames (t .comma * ident)
  | .functionDeclaration => declares 1 (
      t .kwFunc * ident * opt (p .typeParameterList) * p .parameterList * result *
        opt (p .block))
  | .methodDeclaration => declares 2 (
      t .kwFunc * p .parameterList * ident * p .parameterList * result * opt (p .block))
  | .typeParameterList => plain (
      t .leftBracket * p .typeParameter * opt (p .moreTypeParameters) * opt (t .comma) *
        t .rightBracket)
  | .moreTypeParameters => tail .moreTypeParameters (t .comma * p .typeParameter)
  | .typeParameter => plain (ident * opt (p .moreNames) * p .typeElement)
  | .parameterList => plain (
      t .leftParen *
        opt ((p .parameter + p .variadicParameter) * opt (p .moreParameters) * opt (t .comma) +
          t .comma) *
        t .rightParen)
  | .moreParameters => tail .moreParameters (t .comma * (p .parameter + p .variadicParameter))
  | .parameter => plain (opt (ident * opt (p .moreNames)) * aType)
  | .variadicParameter => plain (opt ident * t .ellipsis * aType)
  | .typeDeclaration => plain (
      t .kwType *
        (p .typeSpec + p .typeAlias +
          t .leftParen *
            opt ((p .typeSpec + p .typeAlias) * opt (p .moreTypeSpecs) * opt terminator) *
            t .rightParen))
  | .moreTypeSpecs => tail .moreTypeSpecs (terminator * (p .typeSpec + p .typeAlias))
  | .typeAlias => plain (ident * opt (p .typeParameterList) * t .assign * aType)
  | .typeSpec => plain (ident * opt (p .typeParameterList) * aType)
  | .expressionList => plain (expr * opt (p .moreExpressions))
  | .moreExpressions => tail .moreExpressions (t .comma * expr)
  | .simpleType => plain (
      ident + p .genericType + p .qualifiedType + p .pointerType + p .structType +
        p .interfaceType + p .arrayType + p .sliceType + p .mapType + p .channelType +
        p .functionType + p .negatedType)
  | .parenthesizedType => plain (t .leftParen * aType * t .rightParen)
  | .genericType => plain ((ident + p .qualifiedType + p .negatedType) * p .typeArguments)
  | .typeArguments => plain (
      t .leftBracket * p .typeElement * opt (p .moreTypeArguments) * opt (t .comma) *
        t .rightBracket)
  | .moreTypeArguments => tail .moreTypeArguments (t .comma * p .typeElement)
  | .pointerType => level unary (t .star * aType)
  | .arrayType => right 0 (t .leftBracket * expr * t .rightBracket * aType)
  | .countedArrayType => plain (t .leftBracket * t .ellipsis * t .rightBracket * aType)
  | .sliceType => right 0 (t .leftBracket * t .rightBracket * aType)
  | .structType => plain (t .kwStruct * p .fieldList)
  | .negatedType => left 0 (t .tilde * aType)
  | .fieldList => plain (
      t .leftBrace * opt (p .field * opt (p .moreFields) * opt terminator) * t .rightBrace)
  | .moreFields => tail .moreFields (terminator * p .field)
  | .field => plain (
      (ident * opt (p .moreFieldNames) * aType +
        opt (t .star) * (ident + p .qualifiedType + p .genericType)) *
      opt aString)
  | .moreFieldNames => tail .moreFieldNames (t .comma * ident)
  | .interfaceType => plain (
      t .kwInterface * t .leftBrace *
        opt (interfaceElement * opt (p .moreInterfaceElements) * opt terminator) *
        t .rightBrace)
  | .moreInterfaceElements => tail .moreInterfaceElements (terminator * interfaceElement)
  | .methodElement => plain (ident * p .parameterList * result)
  | .typeElement => plain (aType * opt (p .moreTypeTerms))
  | .moreTypeTerms => tail .moreTypeTerms (t .bar * aType)
  | .mapType => right 0 (t .kwMap * t .leftBracket * aType * t .rightBracket * aType)
  | .channelType =>
      left 0 (t .kwChan * opt (t .arrow) * aType) ++
      left unary (t .arrow * t .kwChan * aType)
  | .functionType => right 0 (t .kwFunc * p .parameterList * result)
  | .qualifiedType => plain (ident * t .dot * ident)
  | .block => plain (t .leftBrace * opt (p .statementList) * t .rightBrace)
  | .statementList => plain (
      p .statement * opt (p .moreStatements) * opt (terminator * opt (p .bareLabel)) +
        p .bareLabel)
  | .moreStatements => tail .moreStatements (terminator * p .statement)
  | .statement => plain (
      p .declaration + p .simpleStatement + p .returnStatement + p .goStatement +
        p .ifStatement + p .forStatement + p .expressionSwitch + p .typeSwitch +
        p .selectStatement + p .labeledStatement + p .fallthroughStatement +
        p .breakStatement + p .gotoStatement + p .block + p .emptyStatement)
  | .emptyStatement => plain (t .semicolon)
  | .simpleStatement => plain (
      p .expressionStatement + p .sendStatement + p .incrementStatement +
        p .decrementStatement + p .assignment + p .shortDeclaration)
  | .expressionStatement => plain expr
  | .sendStatement => plain (expr * t .arrow * expr)
  | .receiveStatement => plain (opt (p .expressionList * (t .assign + t .define)) * expr)
  | .incrementStatement => plain (expr * t .increment)
  | .decrementStatement => plain (expr * t .decrement)
  | .assignment => plain (
      p .expressionList * (t .assign + t .assignOp) * p .expressionList)
  | .shortDeclaration => plain (p .expressionList * t .define * p .expressionList)
  | .labeledStatement => plain (ident * t .colon * p .statement)
  | .bareLabel => plain (ident * t .colon)
  | .fallthroughStatement => left 0 (t .kwFallthrough)
  | .breakStatement => plain (t .kwBreak * opt ident)
  | .gotoStatement => plain (t .kwGoto * ident)
  | .returnStatement => plain (t .kwReturn * opt (p .expressionList))
  | .goStatement => plain (t .kwGo * expr)
  | .ifStatement => plain (
      t .kwIf * opt (p .simpleStatement * t .semicolon) * expr * p .block *
        opt (t .kwElse * (p .block + p .ifStatement)))
  | .forStatement => plain (
      t .kwFor * opt (expr + p .forClause + p .rangeClause) * p .block)
  | .forClause => plain (
      opt (p .simpleStatement) * t .semicolon * opt expr * t .semicolon *
        opt (p .simpleStatement))
  | .rangeClause => plain (
      opt (p .expressionList * (t .assign + t .define)) * t .kwRange * expr)
  | .expressionSwitch => plain (
      t .kwSwitch * opt (p .simpleStatement * t .semicolon) * opt expr * t .leftBrace *
        opt (p .moreExpressionCases) * t .rightBrace)
  | .moreExpressionCases => tail .moreExpressionCases (p .expressionCase + p .defaultCase)
  | .expressionCase => plain (
      t .kwCase * p .expressionList * t .colon * opt (p .statementList))
  | .defaultCase => plain (t .kwDefault * t .colon * opt (p .statementList))
  | .typeSwitch => plain (
      t .kwSwitch * p .typeSwitchHeader * t .leftBrace * opt (p .moreTypeCases) *
        t .rightBrace)
  | .typeSwitchHeader => plain (
      opt (p .simpleStatement * t .semicolon) * opt (p .expressionList * t .define) * expr *
        t .dot * t .leftParen * t .kwType * t .rightParen)
  | .moreTypeCases => tail .moreTypeCases (p .typeCase + p .defaultCase)
  | .typeCase => plain (
      t .kwCase * aType * opt (p .moreTypes) * t .colon * opt (p .statementList))
  | .moreTypes => tail .moreTypes (t .comma * aType)
  | .selectStatement => plain (
      t .kwSelect * t .leftBrace * opt (p .moreSelectCases) * t .rightBrace)
  | .moreSelectCases => tail .moreSelectCases (p .selectCase + p .defaultCase)
  | .selectCase => plain (
      t .kwCase * (p .sendStatement + p .receiveStatement) * t .colon *
        opt (p .statementList))
  | .expression => plain (
      p .unaryExpression + p .binaryExpression + p .selectorExpression + p .indexExpression +
        p .sliceExpression + p .callExpression + p .typeAssertion + p .conversion +
        p .instantiation + ident + t .allocator + p .compositeLiteral + p .functionLiteral +
        aString + t .constant + p .parenthesizedExpression)
  | .parenthesizedExpression => plain (t .leftParen * expr * t .rightParen)
  | .callExpression => level primary (
      t .allocator * p .allocatorArguments +
        expr * opt (p .typeArguments) * p .argumentList)
  | .variadicArgument => right 0 (expr * t .ellipsis)
  | .allocatorArguments => plain (
      t .leftParen * opt (aType * opt (p .moreExpressions) * opt (t .comma)) * t .rightParen)
  | .argumentList => plain (
      t .leftParen *
        opt ((expr + p .variadicArgument) * opt (p .moreArguments) * opt (t .comma)) *
        t .rightParen)
  | .moreArguments => tail .moreArguments (t .comma * (expr + p .variadicArgument))
  | .selectorExpression => level primary (expr * t .dot * ident)
  | .indexExpression => level primary (expr * t .leftBracket * expr * t .rightBracket)
  | .sliceExpression => level primary (
      expr * t .leftBracket *
        (opt expr * t .colon * opt expr + opt expr * t .colon * expr * t .colon * expr) *
        t .rightBracket)
  | .typeAssertion => level primary (
      expr * t .dot * t .leftParen * aType * t .rightParen)
  | .conversion => plain (aType * t .leftParen * expr * opt (t .comma) * t .rightParen)
  | .instantiation => plain (
      aType * t .leftBracket * aType * opt (p .moreTypes) * opt (t .comma) *
        t .rightBracket)
  | .compositeLiteral => level composite (
      (p .mapType + p .sliceType + p .arrayType + p .countedArrayType + p .structType +
        ident + p .genericType + p .qualifiedType) * p .literalValue)
  | .literalValue => plain (
      t .leftBrace *
        opt ((p .literalElement + p .keyedElement) * opt (p .moreElements) * opt (t .comma) +
          t .comma) *
        t .rightBrace)
  | .moreElements => tail .moreElements (t .comma * (p .literalElement + p .keyedElement))
  | .literalElement => plain (expr + p .literalValue)
  | .keyedElement => plain (p .literalElement * t .colon * p .literalElement)
  | .functionLiteral => plain (t .kwFunc * p .parameterList * result * p .block)
  | .unaryExpression => level unary (
      oneOf [.sign, .bang, .star, .ampersand, .arrow] * expr)
  | .binaryExpression =>
      left multiplicative (expr * oneOf [.star, .multiplyOp, .ampersand] * expr) ++
      left additive (expr * oneOf [.sign, .bar] * expr) ++
      left comparative (expr * t .compareOp * expr) ++
      left conjunctive (expr * t .andOp * expr) ++
      left disjunctive (expr * t .orOp * expr)
  | .rawString => plain (t .backquote * t .rawContent * t .backquote)
  | .quotedString => plain (t .openQuote * opt (p .stringParts) * t .closeQuote)
  | .stringParts => tail .stringParts (t .stringContent + t .escape)
  | .file => plain (opt (p .fileItems) * opt fileDeclaration)
  | .fileItems => tail .fileItems ((p .statement + fileDeclaration) * terminator)

/-- The productions of a phrase. -/
def productions (x : Phrase) : List Production :=
  ((rules x).flatMap fun r => r.forms.choices.map fun s => (r, s)).zipIdx.map
    fun ((r, s), i) => ⟨x, i, s, r.level, r.assoc, r.namedBy⟩

end Grammar

end FuncSpans.Go
