import JsonbAlgebra.Expr.Predicate
import JsonbAlgebra.Evaluation
import JsonbAlgebra.Binding
import JsonbAlgebra.Update
import JsonbAlgebra.Settings
import JsonbAlgebra.Proofs.DraftComposition
import JsonbAlgebra.Proofs.SinglePass
import JsonbAlgebra.Proofs.Alignment
import JsonbAlgebra.Proofs.UpdateMerge
import JsonbAlgebra.Proofs.FirstKept
import JsonbAlgebra.Proofs.PostgresParameters
import JsonbAlgebra.Proofs.UpdateLowering
import JsonbAlgebra.Proofs.PatchEvaluation
import JsonbAlgebra.Proofs.UpdateFaults
import JsonbAlgebra.Proofs.TagSoundness
import JsonbAlgebra.Proofs.IdentifierReading
import JsonbAlgebra.Proofs.Quotation
import JsonbAlgebra.Proofs.PhraseDrafts
import JsonbAlgebra.Proofs.PostgresText
import JsonbAlgebra.Proofs.TableSpelling
import JsonbAlgebra.Proofs.QuestionMarks
import JsonbAlgebra.Proofs.UniqueReading
import JsonbAlgebra.Proofs.PlaceholderReading
import JsonbAlgebra.Proofs.UpdateCalls
import JsonbAlgebra.Proofs.LiteralIndependence
import JsonbAlgebra.Proofs.KeyedOrder
import JsonbAlgebra.Proofs.DocumentEdits
import JsonbAlgebra.Proofs.PathLaws
import JsonbAlgebra.Proofs.LiteralUpdates
import JsonbAlgebra.Proofs.BoundForms
import JsonbAlgebra.Proofs.ValueLists
import JsonbAlgebra.Proofs.SeparateEdits
import JsonbAlgebra.Proofs.EditRefusals
import JsonbAlgebra.Proofs.StepwiseNavigation
import JsonbAlgebra.Proofs.ThreeValuedLogic
import JsonbAlgebra.Proofs.ConditionBuilding
import JsonbAlgebra.Proofs.OperandOrder
import JsonbAlgebra.Proofs.Membership
import JsonbAlgebra.Proofs.NullChecks
import JsonbAlgebra.Proofs.EmptyArrays
import JsonbAlgebra.Proofs.TemplateOverrides
import JsonbAlgebra.Proofs.TextReading
import JsonbAlgebra.Proofs.PathForms
import JsonbAlgebra.Proofs.SlotBindings
import JsonbAlgebra.Proofs.NameScanning
import JsonbAlgebra.Proofs.PatternText
import JsonbAlgebra.Proofs.BoundTags
import JsonbAlgebra.Proofs.IndexedEvaluation
import JsonbAlgebra.Proofs.ContainmentDepth
import JsonbAlgebra.Proofs.BranchTags
import JsonbAlgebra.Proofs.ArrayAppends
import JsonbAlgebra.Proofs.IntegerCasts
import JsonbAlgebra.Proofs.LocalOverrides
import JsonbAlgebra.Proofs.SelfOverrides
import JsonbAlgebra.Proofs.EqualityByValue
import JsonbAlgebra.Proofs.Regrouping
import JsonbAlgebra.Proofs.ContainedParts
import JsonbAlgebra.Proofs.WrittenValues
import JsonbAlgebra.Proofs.ByteOrder
import JsonbAlgebra.Proofs.KeyedLookups
import JsonbAlgebra.Proofs.ObjectPairs
import JsonbAlgebra.Proofs.KindNames
import JsonbAlgebra.Proofs.QuotedNames
import JsonbAlgebra.Proofs.EmptyNames
import JsonbAlgebra.Proofs.ElementTypes
