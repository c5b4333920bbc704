import ObjectMachine.Main
import ObjectMachine.Proofs.Soundness
import ObjectMachine.Proofs.Invisibility
import ObjectMachine.Proofs.NumericOperands
import ObjectMachine.Proofs.Scripts
import ObjectMachine.Proofs.Unwinding
import ObjectMachine.Proofs.IndexedRuns
import ObjectMachine.Proofs.Trails
import ObjectMachine.Proofs.Lexical
import ObjectMachine.Proofs.Interning
import ObjectMachine.Proofs.Structure
import ObjectMachine.Proofs.BalancedRuns
import ObjectMachine.Proofs.DepthLimits
import ObjectMachine.Proofs.InstanceLayout
import ObjectMachine.Proofs.Decoding
import ObjectMachine.Proofs.FreshMachine
import ObjectMachine.Proofs.Hierarchy
import ObjectMachine.Proofs.Inheritance
import ObjectMachine.Proofs.Readers
import ObjectMachine.Proofs.Building
import ObjectMachine.Proofs.Callers
import ObjectMachine.Proofs.RepeatedCollection
import ObjectMachine.Proofs.DanglingReferences
import ObjectMachine.Proofs.DecliningPrimitives
import ObjectMachine.Proofs.Stretches
import ObjectMachine.Proofs.Factorial
import ObjectMachine.Proofs.Words
import ObjectMachine.Proofs.ShortFloats
import ObjectMachine.Proofs.BoundedMachines
import ObjectMachine.Proofs.ImageHeaders
import ObjectMachine.Proofs.Outlines
import ObjectMachine.Proofs.PrintedTrees
import ObjectMachine.Proofs.IndexedObjects
import ObjectMachine.Proofs.Ages
import ObjectMachine.Proofs.Copying
