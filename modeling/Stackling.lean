import Stackling.Datum.Match
import Stackling.Main
import Stackling.Suite
import Stackling.Tree.Dump
import Stackling.Tree.Walk
import Stackling.Proofs.Except
import Stackling.Proofs.Symbols
import Stackling.Proofs.Tree
import Stackling.Proofs.Typing
import Stackling.Proofs.Meaning
import Stackling.Proofs.Value
import Stackling.Proofs.Meaning.Soundness
import Stackling.Proofs.Machine
import Stackling.Proofs.Code.Layout
import Stackling.Proofs.Code.Program
import Stackling.Proofs.Code.Simulation
import Stackling.Proofs.Correctness
import Stackling.Proofs.Code.StackMap
import Stackling.Proofs.Code.StackTyping
import Stackling.Proofs.Machine.Invariant
import Stackling.Proofs.Machine.Outcome
import Stackling.Proofs.Machine.Bare
import Stackling.Proofs.Machine.Confinement
import Stackling.Proofs.Machine.Limits
import Stackling.Proofs.Code.Conformance
import Stackling.Proofs.Safety
import Stackling.Proofs.Code.Acceptance
import Stackling.Proofs.Code.Frames
import Stackling.Proofs.Code.Image
import Stackling.Proofs.Cache.Contents
import Stackling.Proofs.Cache.Transparency
import Stackling.Proofs.Code.Tables
import Stackling.Proofs.Frames
import Stackling.Proofs.Grammar
import Stackling.Proofs.Grammar.Reading
import Stackling.Proofs.Grammar.Boundary
import Stackling.Proofs.Grammar.Unique
import Stackling.Proofs.Token
import Stackling.Proofs.Token.Spelling
import Stackling.Proofs.Token.Layout
import Stackling.Proofs.Grammar.Sound
import Stackling.Proofs.Grammar.Complete
import Stackling.Proofs.Parsing
import Stackling.Proofs.Batch
import Stackling.Proofs.Datum.RoundTrip
import Stackling.Proofs.Tree.Erasure
import Stackling.Proofs.Tree.Dump
import Stackling.Proofs.Erasure
import Stackling.Proofs.Code.Erasure
import Stackling.Proofs.Independence
import Stackling.Proofs.Text.Utf8
import Stackling.Proofs.Token.Separation
import Stackling.Proofs.Token.Wrapped
import Stackling.Proofs.Token.Written
import Stackling.Proofs.Token.Lines
import Stackling.Proofs.Grammar.Content
import Stackling.Proofs.Returning
import Stackling.Proofs.Evaluation
import Stackling.Proofs.Code.Strictness
import Stackling.Proofs.Tree.Walk
import Stackling.Proofs.Code.Ranges
import Stackling.Proofs.Code.Reachability
import Stackling.Proofs.Structure
import Stackling.Proofs.Grammar.Script
import Stackling.Proofs.Grammar.Course
import Stackling.Proofs.Grammar.Viable
import Stackling.Proofs.SyntaxErrors
import Stackling.Proofs.Machine.Weight
import Stackling.Proofs.Code.Flow
import Stackling.Proofs.Termination
import Stackling.Proofs.Tree.Moved
import Stackling.Proofs.Grammar.Moved
import Stackling.Proofs.Moved
import Stackling.Proofs.Code.Moved
import Stackling.Proofs.Places
import Stackling.Proofs.Symbols.Contents
import Stackling.Proofs.Datum.Reading
import Stackling.Proofs.Datum.Matching
import Stackling.Proofs.Text.Lines
import Stackling.Proofs.Pointing
import Stackling.Proofs.Source
import Stackling.Proofs.Machine.Bounded
import Stackling.Proofs.Suite
import Stackling.Proofs.Markdown.Lines
import Stackling.Proofs.Markdown.Plain
import Stackling.Proofs.Suite.Written
import Stackling.Proofs.Grammar.Plan
import Stackling.Proofs.Calls
import Stackling.Proofs.Grammar.Extent
import Stackling.Proofs.StartTokens
import Stackling.Proofs.EndOfInput
