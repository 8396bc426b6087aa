import GeometricAlgebra.Main
import GeometricAlgebra.Sampling
import GeometricAlgebra.Proofs.Product.Word
import GeometricAlgebra.Proofs.Algebra.Geometric
import GeometricAlgebra.Proofs.Algebra.Extension
import GeometricAlgebra.Proofs.Multivector.Wedge
import GeometricAlgebra.Proofs.BladeTree.Images
import GeometricAlgebra.Proofs.Outermorphism.Built
import GeometricAlgebra.Proofs.Algebra.Families
import GeometricAlgebra.Proofs.Outermorphism.Map
import GeometricAlgebra.Proofs.Outermorphism.Laws
import GeometricAlgebra.Proofs.Algebra.Minors
import GeometricAlgebra.Proofs.Outermorphism.Determinant
import GeometricAlgebra.Proofs.Outermorphism.Inverse
import GeometricAlgebra.Proofs.Algebra.Parts
import GeometricAlgebra.Proofs.Algebra.Involution
import GeometricAlgebra.Proofs.Frame
import GeometricAlgebra.Proofs.Algebra.Brackets
import GeometricAlgebra.Proofs.Algebra.Outer
import GeometricAlgebra.Proofs.Algebra.Versor
import GeometricAlgebra.Proofs.Algebra.Dual
import GeometricAlgebra.Proofs.Blade.Order
import GeometricAlgebra.Proofs.BladeTree.Moments
import GeometricAlgebra.Proofs.Algebra.Representation
import GeometricAlgebra.Proofs.Algebra.Canonical
import GeometricAlgebra.Proofs.BladeTree.Pruning
import GeometricAlgebra.Proofs.Multivector.Lookup
import GeometricAlgebra.Proofs.Multivector.Collection
import GeometricAlgebra.Proofs.Contracts.EntryPoints
import GeometricAlgebra.Proofs.Polynomial.Terms
import GeometricAlgebra.Proofs.Polynomial.Ring
import GeometricAlgebra.Proofs.Polynomial.Canonical
import GeometricAlgebra.Proofs.Multivector.Vanishing
import GeometricAlgebra.Proofs.Algebra.Evaluation
import GeometricAlgebra.Proofs.Blade.Name
import GeometricAlgebra.Proofs.Decimal.Bits
import GeometricAlgebra.Proofs.Interchange.Document
import GeometricAlgebra.Proofs.Signature
import GeometricAlgebra.Proofs.Json.Pretty
import GeometricAlgebra.Proofs.Json.Written
import GeometricAlgebra.Proofs.Decimal.Rounding
import GeometricAlgebra.Proofs.Decimal.Shortest
import GeometricAlgebra.Proofs.Decimal.Literal
import GeometricAlgebra.Proofs.Number
import GeometricAlgebra.Proofs.Interchange.Text
import GeometricAlgebra.Proofs.Algebra.Maps
import GeometricAlgebra.Proofs.Multivector.Refusal
import GeometricAlgebra.Proofs.Elimination.Tolerance
import GeometricAlgebra.Proofs.Outermorphism.Tolerance
import GeometricAlgebra.Proofs.Algebra.Size
import GeometricAlgebra.Proofs.Outermorphism.Rounding
import GeometricAlgebra.Proofs.Frame.Tolerance
import GeometricAlgebra.Proofs.Algebra.Norm
import GeometricAlgebra.Proofs.Algebra.GradePart
import GeometricAlgebra.Proofs.Outermorphism.Grade
import GeometricAlgebra.Proofs.Text.Split
import GeometricAlgebra.Proofs.Blade.Grammar
import GeometricAlgebra.Proofs.Decimal.Characters
import GeometricAlgebra.Proofs.Multivector.Reading
import GeometricAlgebra.Proofs.Multivector.Writing
import GeometricAlgebra.Proofs.Signature.Building
import GeometricAlgebra.Proofs.Polynomial.Text
import GeometricAlgebra.Proofs.CommandLine.Symbolic
import GeometricAlgebra.Proofs.Blade.Bivector
