import Codemod.Main
import Codemod.Proofs.Text.Quotation
import Codemod.Proofs.Destructure.Capture
import Codemod.Proofs.Destructure.Snapshot
import Codemod.Transform.Replace
import Codemod.Proofs.Component.Context
import Codemod.Proofs.Destructure.Shadowing
import Codemod.Proofs.Destructure.Targets
import Codemod.Proofs.Destructure.SelfMeaning
import Codemod.Proofs.Arrow.Rewriting
import Codemod.Proofs.Destructure.Dropping
import Codemod.Proofs.Files.Collection
import Codemod.Proofs.Options.RoundTrip
import Codemod.Proofs.Scope.Properties
import Codemod.Proofs.Scope.Classes
import Codemod.Proofs.Component.Literals
import Codemod.Proofs.Component.Redirection
import Codemod.Proofs.Bind.Rewriting
import Codemod.Proofs.Destructure.Merging
import Codemod.Proofs.Scope.Innermost
import Codemod.Proofs.Edit.Reordering
import Codemod.Proofs.Path.Segments
import Codemod.Proofs.Pipeline.RunOrder
import Codemod.Proofs.Scope.Chains
