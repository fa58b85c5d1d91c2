import FactorForth.Library.Arity
import FactorForth.Library.DefinedFirst
import FactorForth.Compiler.Emit
import FactorForth.Compiler.EmitItems
import FactorForth.Compiler.Lex
import FactorForth.Compiler.Parse
import FactorForth.Compiler.Driver
import FactorForth.Compiler.Occurrences
import FactorForth.Semantics.Factor
import FactorForth.Semantics.Combinators
import FactorForth.Semantics.Forth
import FactorForth.Correctness.ControlFlow
import FactorForth.Correctness.AnsMeaning
import FactorForth.Correctness.ExitLowering
import FactorForth.Correctness.StackEffect
import FactorForth.Correctness.Atomicity
import FactorForth.Correctness.Inclusion
import FactorForth.Correctness.MethodDispatch
import FactorForth.Correctness.DefinitionOrder
import FactorForth.Correctness.OwnTargets
import FactorForth.Editor.RopeBalance
import FactorForth.Compiler.IntegerText
import FactorForth.Correctness.LexText
import FactorForth.Correctness.LexicalScope
import FactorForth.Library.Outcome
import FactorForth.Correctness.Sentences
import FactorForth.Correctness.ReadBack
import FactorForth.Correctness.ParsePrint
import FactorForth.Correctness.TokensKept
import FactorForth.Library.Runs
import FactorForth.Correctness.LatestDefinition
import FactorForth.Semantics.Scoping
import FactorForth.Correctness.Hygiene
import FactorForth.Correctness.LoadOrder
import FactorForth.Gui.Mailbox
import FactorForth.Correctness.CountedLoops
import FactorForth.Library.Triple
import FactorForth.Correctness.ExitFromLoop
import FactorForth.Runtime.Stacks
import FactorForth.Correctness.Lockstep
import FactorForth.Session.Protocol
import FactorForth.Session.Isolation
import FactorForth.Editor.Commands
import FactorForth.Editor.History
import FactorForth.Correctness.Included
import FactorForth.Session.Loading
import FactorForth.Correctness.RecordedEffects
import FactorForth.Semantics.Linking
import FactorForth.Correctness.DefinitionEffects
import FactorForth.Correctness.SessionEffects
import FactorForth.Library.BytePos
import FactorForth.Gui.ReplInput
import FactorForth.Gui.ReplCursor
import FactorForth.Gui.ConsoleHistory
import FactorForth.Gui.SyntaxCheck
import FactorForth.Correctness.LocalSpelling
import FactorForth.Semantics.QdupIf
import FactorForth.Correctness.QdupMeaning
import FactorForth.Correctness.WordNames
import FactorForth.Correctness.DoesBodies
import FactorForth.Correctness.CollectionMeaning
import FactorForth.Correctness.RecursiveCalls
import FactorForth.Correctness.Annotations
import FactorForth.Correctness.TemplateUses
import FactorForth.Correctness.Buffers
import FactorForth.Correctness.TokenSpans
import FactorForth.Correctness.SurvivingExits
import FactorForth.Correctness.TokensLeft
import FactorForth.Correctness.MethodPositions
import FactorForth.Correctness.ClassWords
import FactorForth.Correctness.ClassObjects
import FactorForth.Correctness.LetBlocks
import FactorForth.Cells.Division
import FactorForth.Cells.Pictured
import FactorForth.Cells.CellLaws
import FactorForth.Gui.TextGrid
import FactorForth.Editor.Utf8
import FactorForth.Editor.LineIndex
import FactorForth.Correctness.TextKept
import FactorForth.Correctness.LetPrecedence
import FactorForth.Correctness.LetComputes
import FactorForth.Correctness.LetScopes
import FactorForth.Gui.PromptRows
import FactorForth.Correctness.NumberTexts
import FactorForth.Gui.MarkdownKeeps
import FactorForth.Correctness.CollectionSort
import FactorForth.Correctness.SplitJoin
import FactorForth.Correctness.TextWordLaws
import FactorForth.Editor.TabColumns
import FactorForth.Correctness.Clones
import FactorForth.Correctness.PrintedText
import FactorForth.Correctness.NumberRenderers
import FactorForth.Session.Input
import FactorForth.Semantics.Simulation
import FactorForth.Correctness.NarrowPrograms
import FactorForth.Gui.TextQueries
import FactorForth.Layout.Acyclic
import FactorForth.Layout.TurnedBack
