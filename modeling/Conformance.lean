import Conformance.ClassFile.Builder
import Conformance.Java.Problem
import Conformance.Main
import Conformance.Proofs.Walk
import Conformance.Proofs.Comparison
import Conformance.Proofs.Stability
import Conformance.Proofs.Match
import Conformance.Proofs.Path
import Conformance.Proofs.Tree
import Conformance.Proofs.Disk
import Conformance.Proofs.Reading
import Conformance.Proofs.Saving
import Conformance.Proofs.Outline
import Conformance.Proofs.Gains
import Conformance.Proofs.Convergence
import Conformance.Proofs.PlainInterfaces
import Conformance.Proofs.Precedence
import Conformance.Proofs.Tokens
import Conformance.Proofs.Rereading
import Conformance.Proofs.Lexing
import Conformance.Proofs.Clause
import Conformance.Proofs.Distance
import Conformance.Proofs.Ancestry
import Conformance.Proofs.Instance
import Conformance.Proofs.MethodOrder
import Conformance.Proofs.ExactLength
import Conformance.Proofs.ClassRoundTrip
import Conformance.Proofs.SavedReading
import Conformance.Proofs.ParameterNames
import Conformance.Proofs.Loading
import Conformance.Proofs.MethodInstances
import Conformance.Proofs.VariableScope
import Conformance.Proofs.SignatureRoundTrip
import Conformance.Proofs.InheritedMethods
import Conformance.Proofs.SourceAccounts
import Conformance.Proofs.ClassLookup
import Conformance.Proofs.ResultTypes
import Conformance.Proofs.Bounds
import Conformance.Proofs.Origins
import Conformance.Proofs.EditOrder
import Conformance.Proofs.Spelling
import Conformance.Proofs.ViewInstances
import Conformance.Proofs.HierarchyWalks
import Conformance.Proofs.AncestorOrder
import Conformance.Proofs.PlainSignatures
import Conformance.Proofs.PoolNumbers
import Conformance.Proofs.PackageFilter
import Conformance.Proofs.PlainInterfaces
