import MatrixLang.Main
import MatrixLang.Proofs.Climbing
import MatrixLang.Proofs.Preparation
import MatrixLang.Proofs.OperatorStack
import MatrixLang.Proofs.Precedence
import MatrixLang.Proofs.NumberBits
import MatrixLang.Proofs.Rounding
import MatrixLang.Proofs.NumberText
import MatrixLang.Proofs.Fragments
import MatrixLang.Proofs.Scanning
import MatrixLang.Proofs.Passages
import MatrixLang.Proofs.ValueText
import MatrixLang.Proofs.ExprText
import MatrixLang.Proofs.Clauses
import MatrixLang.Proofs.Outlines
import MatrixLang.Proofs.StatementText
import MatrixLang.Proofs.Guarded
import MatrixLang.Proofs.GuardedMatrix
import MatrixLang.Proofs.GuardedOperations
import MatrixLang.Proofs.GuardedRun
import MatrixLang.Proofs.Outcomes
import MatrixLang.Proofs.WellShaped
import MatrixLang.Proofs.StageSeparation
import MatrixLang.Proofs.Confinement
import MatrixLang.Proofs.LineTags
import MatrixLang.Proofs.Nesting
import MatrixLang.Proofs.Cutting
import MatrixLang.Proofs.Concatenation
import MatrixLang.Proofs.Braces
import MatrixLang.Proofs.Descent
import MatrixLang.Proofs.MadeValues
import MatrixLang.Proofs.SizeCap
import MatrixLang.Proofs.Desugaring
import MatrixLang.Proofs.OperandCounts
import MatrixLang.Proofs.Separators
import MatrixLang.Proofs.Placement
import MatrixLang.Proofs.Closing
import MatrixLang.Proofs.Acceptance
import MatrixLang.Proofs.GuardedPasses
import MatrixLang.Proofs.GuardedCompile
import MatrixLang.Proofs.Parts
import MatrixLang.Proofs.TreeCode
import MatrixLang.Proofs.Conservation
import MatrixLang.Proofs.Suffixes
import MatrixLang.Proofs.Effects
import MatrixLang.Proofs.Cells
import MatrixLang.Proofs.Collecting
import MatrixLang.Proofs.PartAssignment
import MatrixLang.Proofs.Groups
import MatrixLang.Proofs.LiteralShapes
import MatrixLang.Proofs.Blocks
import MatrixLang.Proofs.FullConvolution
import MatrixLang.Proofs.MissingCells
import MatrixLang.Proofs.ImageFilter
import MatrixLang.Proofs.Broadcasting
import MatrixLang.Proofs.Joining
import MatrixLang.Proofs.JoinedParts
import MatrixLang.Proofs.NumberOperations
import MatrixLang.Proofs.TransposedProducts
import MatrixLang.Proofs.JsonText
import MatrixLang.Proofs.JsonNumbers
import MatrixLang.Proofs.JsonMatrix
import MatrixLang.Proofs.LineBreaks
import MatrixLang.Proofs.Glyphs
import MatrixLang.Proofs.LineOrder
import MatrixLang.Proofs.FailureLines
import MatrixLang.Proofs.Respacing
import MatrixLang.Proofs.LongestNumerals
import MatrixLang.Proofs.NumeralBytes
import MatrixLang.Proofs.GuardedSegment
