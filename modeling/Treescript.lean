import Treescript.Command.Console
import Treescript.Command.Dispatch
import Treescript.Command.Help
import Treescript.Command.Request
import Treescript.Decimal.Notation
import Treescript.Decimal.Reading
import Treescript.Decimal.Shortest
import Treescript.Diagnostic
import Treescript.Document.Basic
import Treescript.Document.Fault
import Treescript.Document.Load
import Treescript.Document.Reader
import Treescript.Eval
import Treescript.Failure
import Treescript.Files
import Treescript.Literal
import Treescript.Log
import Treescript.Machine
import Treescript.Main
import Treescript.NameMap
import Treescript.Native
import Treescript.Operators
import Treescript.Proofs.Annotation
import Treescript.Proofs.Places
import Treescript.Resolution
import Treescript.Scope
import Treescript.Session
import Treescript.Settings
import Treescript.Store
import Treescript.Symbols
import Treescript.Text.Blank
import Treescript.Text.LetterCase
import Treescript.Text.Printable
import Treescript.Text.Quoted
import Treescript.Token
import Treescript.Tree.Basic
import Treescript.Tree.Printer
import Treescript.Tree.Walk
import Treescript.Value
import Treescript.Yaml.Basic
import Treescript.Yaml.Cursor
import Treescript.Yaml.Fit
import Treescript.Yaml.Parser
import Treescript.Yaml.Scalar
import Treescript.Yaml.Spelling
import Treescript.Yaml.Token
import Treescript.Proofs.OpenScopes
import Treescript.Proofs.ResolverWalk
import Treescript.Proofs.Coverage
import Treescript.Proofs.LexicalDistance
import Treescript.Proofs.WatchedRuns
import Treescript.Proofs.Erasure
import Treescript.Proofs.ScopeViews
import Treescript.Proofs.Worlds
import Treescript.Proofs.Constants
import Treescript.Proofs.WatchContracts
import Treescript.Proofs.ReadOnlyRuns
import Treescript.Proofs.Encounters
import Treescript.Proofs.ScopeInvariant
import Treescript.Proofs.WatchedSessions
import Treescript.Proofs.ScopeAgreement
import Treescript.Proofs.StoreHistory
import Treescript.Proofs.ComposedSessions
import Treescript.Proofs.Regions
import Treescript.Proofs.DecodedPrograms
import Treescript.Proofs.WholeVisits
import Treescript.Proofs.BoundLocals
import Treescript.Proofs.Relabelling
import Treescript.Proofs.Revisions
import Treescript.Proofs.Declarations
import Treescript.Proofs.RevisedPlaces
import Treescript.Proofs.PairedMachines
import Treescript.Proofs.PairedSteps
import Treescript.Proofs.PairedRuns
import Treescript.Proofs.RevisedRuns
import Treescript.Proofs.Occurrences
import Treescript.Proofs.ResolvedPrograms
import Treescript.Proofs.WrappedStatements
import Treescript.Proofs.DistinctNames
import Treescript.Proofs.RenamedLocals
import Treescript.Proofs.SelfScopes
import Treescript.Proofs.Receivers
import Treescript.Proofs.ReceivedRuns
import Treescript.Proofs.SelfReference
import Treescript.Proofs.Evaluations
import Treescript.Proofs.StrictFailures
import Treescript.Proofs.RaisedFailures
import Treescript.Proofs.LiveReferences
import Treescript.Proofs.OrdinaryFailures
import Treescript.Proofs.SafeRuns
import Treescript.Proofs.SoundEvaluations
import Treescript.Proofs.ReachedMachines
import Treescript.Proofs.InternalFaults
import Treescript.Proofs.Answers
import Treescript.Proofs.FirstClassValues
import Treescript.Proofs.ReturnedValues
import Treescript.Proofs.TopLevel
import Treescript.Proofs.DocumentGrammar
import Treescript.Proofs.Reachability
import Treescript.Proofs.CallFrames
import Treescript.Proofs.MovedTrees
import Treescript.Proofs.MovedRuns
import Treescript.Proofs.MovedDocuments
import Treescript.Proofs.LocatedFailures
import Treescript.Proofs.MovedResolution
import Treescript.Proofs.RowIndependence
import Treescript.Proofs.RestoredScopes
import Treescript.Proofs.PredictedRuns
import Treescript.Proofs.QuotedText
import Treescript.Proofs.PrintedText
import Treescript.Proofs.LegibleTrees
import Treescript.Proofs.PrintedTrees
import Treescript.Proofs.RereadTrees
import Treescript.Proofs.Chronicles
import Treescript.Proofs.ChronicledRuns
import Treescript.Proofs.ChronicledEvaluations
import Treescript.Proofs.IsolatedHolders
import Treescript.Proofs.DocumentNodes
import Treescript.Proofs.FirstFaults
import Treescript.Proofs.EnumOrdinals
import Treescript.Proofs.SelfInitializers
import Treescript.Proofs.Alterations
import Treescript.Proofs.SteppedEvaluations
import Treescript.Proofs.ReceiverScopes
import Treescript.Proofs.PilotResults
import Treescript.Proofs.TokenRows
import Treescript.Proofs.RespelledTrees
import Treescript.Proofs.RecastDocuments
import Treescript.Proofs.FixedTypes
import Treescript.Proofs.ReservedNames
import Treescript.Proofs.AssignedBindings
import Treescript.Proofs.FailedForms
import Treescript.Proofs.FuelIndependence
import Treescript.Proofs.SequencedEvaluations
import Treescript.Proofs.Conditionals
import Treescript.Proofs.WrappingArithmetic
import Treescript.Proofs.CallProtocol
import Treescript.Proofs.Spots
import Treescript.Proofs.CountedVariables
import Treescript.Proofs.BalancedWalks
import Treescript.Proofs.ScopeHistories
