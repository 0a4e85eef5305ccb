import ProviderGraph.Change
import ProviderGraph.Classification
import ProviderGraph.Decimal.Shortest
import ProviderGraph.Decimal.Text
import ProviderGraph.Engine
import ProviderGraph.Evaluation.Act
import ProviderGraph.Evaluation.Basic
import ProviderGraph.Evaluation.Build
import ProviderGraph.Evaluation.Call
import ProviderGraph.Evaluation.Classify
import ProviderGraph.Evaluation.Finalize
import ProviderGraph.Evaluation.Presence
import ProviderGraph.Evaluation.Production
import ProviderGraph.Evaluation.Register
import ProviderGraph.Evaluation.Render
import ProviderGraph.Evaluation.Value
import ProviderGraph.Fault
import ProviderGraph.Json.Fault
import ProviderGraph.Json.Number
import ProviderGraph.Json.Text
import ProviderGraph.Machine
import ProviderGraph.Names
import ProviderGraph.Payload
import ProviderGraph.Producer
import ProviderGraph.Proofs.Classification.AlikeProviders
import ProviderGraph.Proofs.Classification.ClassifiedProviders
import ProviderGraph.Proofs.Classification.DecidedAhead
import ProviderGraph.Proofs.Classification.FixedForGood
import ProviderGraph.Proofs.Classification.Grounds
import ProviderGraph.Proofs.Classification.MissingPaths
import ProviderGraph.Proofs.Classification.Preservation
import ProviderGraph.Proofs.Classification.RebuiltValues
import ProviderGraph.Proofs.Classification.Repetition
import ProviderGraph.Proofs.Classification.Retracing
import ProviderGraph.Proofs.Classification.SimilarValues
import ProviderGraph.Proofs.DepthLimit.Attribution
import ProviderGraph.Proofs.DepthLimit.OnlyRefusals
import ProviderGraph.Proofs.DepthLimit.Overflow
import ProviderGraph.Proofs.DepthLimit.ShownRefusals
import ProviderGraph.Proofs.Effect.BareGraphs
import ProviderGraph.Proofs.Effect.Deliveries
import ProviderGraph.Proofs.Effect.Execution
import ProviderGraph.Proofs.Effect.MirroredBuilding
import ProviderGraph.Proofs.Effect.MirroredCalls
import ProviderGraph.Proofs.Effect.MirroredRules
import ProviderGraph.Proofs.Effect.MirroredRuns
import ProviderGraph.Proofs.Effect.Neutrality
import ProviderGraph.Proofs.Effect.ReadyProviders
import ProviderGraph.Proofs.Effect.Rereading
import ProviderGraph.Proofs.Effect.StrictReadings
import ProviderGraph.Proofs.Effect.ValueEdits
import ProviderGraph.Proofs.Engine.AttemptComposition
import ProviderGraph.Proofs.Engine.Fuel
import ProviderGraph.Proofs.Engine.PosedQuestions
import ProviderGraph.Proofs.Engine.RaisedQuestions
import ProviderGraph.Proofs.Engine.RuleComposition
import ProviderGraph.Proofs.Engine.Terms
import ProviderGraph.Proofs.Engine.Trails
import ProviderGraph.Proofs.Finalization.AnswersSideBySide
import ProviderGraph.Proofs.Finalization.ComputedOnce
import ProviderGraph.Proofs.Finalization.Contributions
import ProviderGraph.Proofs.Finalization.FailedFinalization
import ProviderGraph.Proofs.Finalization.FinalizedMachines
import ProviderGraph.Proofs.Finalization.FinalizingAndReading
import ProviderGraph.Proofs.Finalization.MarkedProperties
import ProviderGraph.Proofs.Finalization.Meanings
import ProviderGraph.Proofs.Finalization.PropertiesSideBySide
import ProviderGraph.Proofs.Finalization.ReadingsSideBySide
import ProviderGraph.Proofs.Finalization.UnnoticedFinalization
import ProviderGraph.Proofs.Graph.Agendas
import ProviderGraph.Proofs.Graph.Basic
import ProviderGraph.Proofs.Graph.PureCode
import ProviderGraph.Proofs.Graph.Twins
import ProviderGraph.Proofs.Graph.WiredGraphs
import ProviderGraph.Proofs.Identity.Evolution
import ProviderGraph.Proofs.Identity.OldAndNew
import ProviderGraph.Proofs.Identity.RenamedEvaluations
import ProviderGraph.Proofs.Identity.RenamedRules
import ProviderGraph.Proofs.Identity.RenamedRuns
import ProviderGraph.Proofs.Identity.RenamedSteps
import ProviderGraph.Proofs.Identity.Renaming
import ProviderGraph.Proofs.Identity.Roll
import ProviderGraph.Proofs.Identity.RollEvaluations
import ProviderGraph.Proofs.Identity.RollRules
import ProviderGraph.Proofs.Identity.RollSteps
import ProviderGraph.Proofs.Producer.Dependencies
import ProviderGraph.Proofs.Producer.FoundProducers
import ProviderGraph.Proofs.Producer.JoinedTrees
import ProviderGraph.Proofs.Property.KeptValues
import ProviderGraph.Proofs.Property.MutationProtocol
import ProviderGraph.Proofs.Property.Operations
import ProviderGraph.Proofs.Property.Permanence
import ProviderGraph.Proofs.Property.SessionChanges
import ProviderGraph.Proofs.Property.SparedProperties
import ProviderGraph.Proofs.Property.TameRules
import ProviderGraph.Proofs.Property.Turns
import ProviderGraph.Proofs.Property.Updates
import ProviderGraph.Proofs.Query.NodelessGraphs
import ProviderGraph.Proofs.Query.PresenceAndValue
import ProviderGraph.Proofs.Query.RelayedFailures
import ProviderGraph.Proofs.Query.Speculation
import ProviderGraph.Proofs.Query.Texts
import ProviderGraph.Proofs.Reference.Cycles
import ProviderGraph.Proofs.Reference.EngineAgreement
import ProviderGraph.Proofs.Reference.EngineAtRest
import ProviderGraph.Proofs.Reference.Evaluator
import ProviderGraph.Proofs.Reference.FittingProviders
import ProviderGraph.Proofs.Reference.PureBuilding
import ProviderGraph.Proofs.Reference.ScopeDisciplines
import ProviderGraph.Proofs.Reference.ScopeTransparency
import ProviderGraph.Proofs.Reference.Walks
import ProviderGraph.Proofs.Scope.Balance
import ProviderGraph.Proofs.Scope.Frames
import ProviderGraph.Proofs.Scope.HeldScopes
import ProviderGraph.Proofs.Scope.Ledger
import ProviderGraph.Proofs.Scope.OpenScopes
import ProviderGraph.Proofs.Scope.Reentry
import ProviderGraph.Proofs.Session.Courses
import ProviderGraph.Proofs.Session.Laws
import ProviderGraph.Proofs.Session.ReachedMachines
import ProviderGraph.Proofs.Settings.Digits
import ProviderGraph.Proofs.Settings.EnvironmentDepth
import ProviderGraph.Proofs.Settings.JsonDepth
import ProviderGraph.Proofs.Settings.JsonGrammar
import ProviderGraph.Property
import ProviderGraph.Provider
import ProviderGraph.Reading
import ProviderGraph.Scope
import ProviderGraph.Script.Basic
import ProviderGraph.Script.Library
import ProviderGraph.Script.Request
import ProviderGraph.Session.Classification
import ProviderGraph.Session.Producer
import ProviderGraph.Session.Property
import ProviderGraph.Session.Provider
import ProviderGraph.Session.Run
import ProviderGraph.Session.Scope
import ProviderGraph.Session.Step
import ProviderGraph.Session.Value
import ProviderGraph.Settings.Basic
import ProviderGraph.Settings.Environment
import ProviderGraph.Settings.Json
import ProviderGraph.SideEffect
import ProviderGraph.Table
import ProviderGraph.Text.Blank
import ProviderGraph.Text.Combining
import ProviderGraph.Text.Quoted
import ProviderGraph.Text.Range
import ProviderGraph.Text.Unprintable
import ProviderGraph.Value
