import RenderGuard.Session
import RenderGuard.Proofs.Children
import RenderGuard.Proofs.Binding
import RenderGuard.Proofs.Coverage
import RenderGuard.Proofs.Independence
import RenderGuard.Proofs.Runs
import RenderGuard.Proofs.Undo
import RenderGuard.Proofs.Repetition
import RenderGuard.Proofs.Change
import RenderGuard.Proofs.Delegation
import RenderGuard.Proofs.Scope
import RenderGuard.Proofs.Account
import RenderGuard.Proofs.WalkOrder
import RenderGuard.Proofs.Locality
import RenderGuard.Proofs.OptionText
import RenderGuard.Proofs.Members
import RenderGuard.Proofs.Lookup
import RenderGuard.Proofs.Classification
import RenderGuard.Proofs.Depth
import RenderGuard.Proofs.Positions
import RenderGuard.Proofs.Json.Spelling
import RenderGuard.Proofs.Specifier
