import MicroJava.Analysis.Reachable
import MicroJava.Proofs.Analysis.Annotated
import MicroJava.Proofs.Analysis.Ledgers
import MicroJava.Proofs.Analysis.Lookups
import MicroJava.Proofs.Analysis.Masking
import MicroJava.Proofs.Analysis.Overriding
import MicroJava.Proofs.Analysis.Predefined
import MicroJava.Proofs.Analysis.Receivers
import MicroJava.Proofs.Analysis.Restoring
import MicroJava.Proofs.Analysis.TypeOrder
import MicroJava.Proofs.Compiler.Options
import MicroJava.Proofs.Control.ShortCircuit
import MicroJava.Proofs.Emitter.Backpatching
import MicroJava.Proofs.Emitter.Failing
import MicroJava.Proofs.Emitter.Listing
import MicroJava.Proofs.Layout.Calls
import MicroJava.Proofs.Layout.Complete
import MicroJava.Proofs.Layout.Fields
import MicroJava.Proofs.Layout.Parking
import MicroJava.Proofs.Machine.Loading
import MicroJava.Proofs.Semantics.Unpacking
