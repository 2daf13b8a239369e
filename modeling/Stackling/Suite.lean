import Stackling.Datum.Read
import Stackling.Markdown

/-!
# Test suites in Markdown

A suite is a document in which every heading `Test: name` opens a test case and the fences that
follow it, up to the next such heading, make it up: one with the input and any number that say what
is expected of it. The language of a fence says which it is; a fence without a language is prose.
An input fence without contents counts as absent.

`ofBlocks` reads the headings and fences of a document in order. Whatever it cannot place is a
fault, and the first fault ends the reading. Finding the headings and fences is left to a parser of
Markdown (`extract`).
-/

namespace Stackling.Suite

open Markdown (Block Chars)

/-- What the input of a test is. -/
inductive InputKind where
  | expression
  | program
  deriving DecidableEq, Repr

/-- What an assertion speaks of. -/
inductive AssertionKind where
  /-- the tree of the input, as a pattern -/
  | tree
  /-- the instructions that the input is compiled to -/
  | code
  /-- what the input prints -/
  | output
  /-- the message that the input is refused with -/
  | refusal
  deriving DecidableEq, Repr

/-- The language of an input fence. -/
def InputKind.language : InputKind → String
  | expression => "waddle-expr"
  | program => "waddle-program"

/-- The language of an assertion fence. -/
def AssertionKind.language : AssertionKind → String
  | tree => "ast"
  | code => "bytecode"
  | output => "execute"
  | refusal => "compile-error"

/-- What a fence is for. -/
inductive Role where
  | input (k : InputKind)
  | assertion (k : AssertionKind)
  deriving DecidableEq, Repr

/-- The language of the fences with a role. -/
def Role.language : Role → String
  | input k => k.language
  | assertion k => k.language

/-- All roles. -/
def Role.all : List Role :=
  [.input .expression, .input .program, .assertion .tree, .assertion .code, .assertion .output,
   .assertion .refusal]

/-- The role of the fences in a language. -/
def Role.ofLanguage? (language : Bytes) : Option Role :=
  all.find? fun r => Bytes.ofString r.language == language

/-- The input of a test. -/
structure Input where
  kind : InputKind
  text : Bytes
  /-- the line that the text starts on -/
  line : Nat
  deriving Repr

/-- Something that is expected of an input. -/
structure Assertion where
  kind : AssertionKind
  content : Bytes
  /-- the content of an assertion about the tree -/
  pattern : Option Datum
  deriving Repr

/-- A test. -/
structure TestCase where
  name : Bytes
  input : Input
  assertions : List Assertion
  deriving Repr

/-- A test whose fences are still being read. -/
structure Draft where
  name : Bytes
  input : Option Input
  assertions : List Assertion
  deriving Repr

/-! ## Faults -/

/-- Why a document is no suite. -/
inductive Fault where
  | outside (line : Nat) (language : Bytes)
  | unknownLanguage (line : Nat) (language test : Bytes)
  | secondInput (line : Nat) (test : Bytes)
  | badPattern (line : Nat) (test : Bytes) (cause : Datum.ReadError)
  | noInput (test : Bytes)
  | noAssertion (test : Bytes)
  deriving Repr

/-- The message of a fault. -/
def Fault.message : Fault → Bytes
  | outside line language =>
    if (Role.ofLanguage? language).isSome then
      place line ++ language ++ say " fence found outside of test case"
    else place line ++ say "unknown fence language '" ++ language ++
      say "' found outside of test case"
  | unknownLanguage line language test =>
    place line ++ say "unknown fence language '" ++ language ++ say "' in test '" ++ test ++ say "'"
  | secondInput line test =>
    place line ++ say "multiple input fences found in test '" ++ test ++ say "'"
  | badPattern line test cause =>
    place line ++ say "failed to parse Sexy assertion in test '" ++ test ++ say "': " ++
      say cause.message
  | noInput test => say "test '" ++ test ++ say "' has no input fence"
  | noAssertion test => say "test '" ++ test ++ say "' has no assertion fences"
where
  /-- The words of a message. -/
  say (s : String) : Bytes := .ofString s
  /-- The line that a message starts with. -/
  place (line : Nat) : Bytes := say ("line " ++ toString line ++ ": ")

/-- A fault, and whether it was met at a block or only at the end of the document. -/
inductive SuiteError where
  | atBlock (f : Fault)
  | atEnd (f : Fault)
  deriving Repr

/-- The message of an error. -/
def SuiteError.message : SuiteError → Bytes
  | atBlock f => .ofString "error walking markdown AST: " ++ f.message
  | atEnd f => f.message

/-! ## Fences -/

/-- The language of a fence: what is written after it, up to the first blank. -/
def fenceLanguage (info : Chars) : Bytes := Utf8.join (info.takeWhile (· ≠ .char ' '))

/-- The text inside a fence, without the line ends after it. -/
def fenceText (content : List Chars) : Bytes :=
  let kept := (content.reverse.dropWhile List.isEmpty).reverse
  Utf8.join (kept.intersperse [.char '\n']).flatten

/-- The line that the text inside a fence starts on; the first of the document if there is none. -/
def fenceLine (line : Nat) (content : List Chars) : Nat :=
  if content.isEmpty then 1 else line + 1

/-- The name of the test that a heading opens. -/
def testName? (heading : Chars) : Option Bytes :=
  if Chars.startsWith heading "Test: " then some (Utf8.join (heading.drop 6)) else none

/-! ## Reading -/

/-- A finished test has an input and something to check. -/
def Draft.finish (d : Draft) : Except Fault TestCase :=
  match d.input with
  | none => .error (.noInput d.name)
  | some i => if d.assertions.isEmpty then .error (.noAssertion d.name)
    else .ok ⟨d.name, i, d.assertions⟩

/-- Adds a fence to a test. -/
def Draft.add (d : Draft) (role : Role) (line : Nat) (text : Bytes) : Except Fault Draft :=
  match role with
  | .input k =>
    if d.input.isSome then .error (.secondInput line d.name)
    else .ok { d with input := if text.isEmpty then none else some ⟨k, text, line⟩ }
  | .assertion .tree =>
    match Datum.ofText (Utf8.decode text) with
    | .error e => .error (.badPattern line d.name e)
    | .ok p => .ok { d with assertions := d.assertions ++ [⟨.tree, text, some p⟩] }
  | .assertion k => .ok { d with assertions := d.assertions ++ [⟨k, text, none⟩] }

/-- The tests that are finished, and the one that is being read. -/
structure Progress where
  finished : List TestCase
  current : Option Draft
  deriving Repr

/-- Finishes the test that is being read. -/
def Progress.finish (p : Progress) : Except Fault (List TestCase) :=
  match p.current with
  | none => .ok p.finished
  | some d => d.finish.map fun t => p.finished ++ [t]

/-- Reads one block. -/
def Progress.add (p : Progress) : Block → Except Fault Progress
  | .heading title =>
    match testName? title with
    | none => .ok p
    | some name => p.finish.map fun ts => ⟨ts, some ⟨name, none, []⟩⟩
  | .fence info line content =>
    let language := fenceLanguage info
    let place := fenceLine line content
    if language.isEmpty then .ok p
    else
      match p.current, Role.ofLanguage? language with
      | none, _ => .error (.outside place language)
      | some d, none => .error (.unknownLanguage place language d.name)
      | some d, some role =>
        (d.add role place (fenceText content)).map fun d => { p with current := some d }

/-- The tests in the blocks of a document. -/
def ofBlocks (bs : List Block) : Except SuiteError (List TestCase) :=
  match bs.foldlM Progress.add ⟨[], none⟩ with
  | .error f => .error (.atBlock f)
  | .ok p => p.finish.mapError .atEnd

/-- The tests in a document whose headings and fences `parse` finds. -/
def extract (parse : Bytes → List Block) (document : Bytes) : Except SuiteError (List TestCase) :=
  ofBlocks (parse document)

/-- The tests in a document. -/
def ofDocument (document : Bytes) : Except SuiteError (List TestCase) :=
  extract Markdown.blocks document

end Stackling.Suite
