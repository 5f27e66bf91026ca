import QueryStage.Decoder.Decode
import QueryStage.Expr.Equality
import QueryStage.Expr.Traversal
import QueryStage.Lowering.Rerooting
import QueryStage.Stage
import QueryStage.Proofs.Outcome
import QueryStage.Proofs.PathText
import QueryStage.Proofs.Evaluation
import QueryStage.Proofs.CoreProjection
import QueryStage.Proofs.Nodes
import QueryStage.Proofs.Relocation
import QueryStage.Proofs.LoopHygiene
import QueryStage.Proofs.BindingInvariant
import QueryStage.Proofs.References
import QueryStage.Proofs.Tracing
import QueryStage.Proofs.GroupReferences
import QueryStage.Proofs.KeyReadings
import QueryStage.Proofs.AccumulatorNesting
import QueryStage.Proofs.BindingOrigins
import QueryStage.Proofs.AccumulatorsKept
import QueryStage.Proofs.BoundPlaces
import QueryStage.Proofs.Shapes
import QueryStage.Proofs.ShapeAgreement
import QueryStage.Proofs.Withholding
import QueryStage.Proofs.GroupingUses
import QueryStage.Proofs.RelatedLowering
import QueryStage.Proofs.VariableScopes
import QueryStage.Proofs.CapturedVariables
import QueryStage.Proofs.RenamedReferences
import QueryStage.Proofs.RenamedLoops
import QueryStage.Proofs.RenamedLambdas
import QueryStage.Proofs.LexicalScoping
import QueryStage.Proofs.RegistryExtension
import QueryStage.Proofs.LiteralTexts
import QueryStage.Proofs.ExpressionForms
import QueryStage.Proofs.CarriedDecoders
import QueryStage.Proofs.WellFormedDecoders
import QueryStage.Proofs.JoinedLowering
import QueryStage.Proofs.Flattening
import QueryStage.Proofs.StringUnits
import QueryStage.Proofs.LoopVariables
import QueryStage.Proofs.WellScopedStages
import QueryStage.Proofs.DoubleValues
import QueryStage.Proofs.NumericDecoding
import QueryStage.Proofs.ReadElements
import QueryStage.Proofs.FusedAccumulators
import QueryStage.Proofs.CompositeKeys
import QueryStage.Proofs.ComputedValues
import QueryStage.Proofs.DeclaredFlags
import QueryStage.Proofs.RepeatedNames
import QueryStage.Proofs.Rebinding
import QueryStage.Proofs.ElementParameters
import QueryStage.Proofs.ElementNames
import QueryStage.Proofs.RelatedNodes
import QueryStage.Proofs.MovedReadings
import QueryStage.Proofs.PassThrough
import QueryStage.Proofs.PassedArguments
import QueryStage.Proofs.Interposition
import QueryStage.Proofs.Registrations
import QueryStage.Proofs.SyntaxTrees
import QueryStage.Proofs.Traversals
import QueryStage.Proofs.MovedPaths
import QueryStage.Proofs.BindingSites
import QueryStage.Proofs.StaticTypes
import QueryStage.Proofs.Declarations
