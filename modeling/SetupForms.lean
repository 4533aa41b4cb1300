import SetupForms.Blueprint
import SetupForms.Main
import SetupForms.Store.Request
import SetupForms.Proofs.Reading
import SetupForms.Proofs.WireField
import SetupForms.Proofs.WireRecord
import SetupForms.Proofs.WireOption
import SetupForms.Proofs.WalkTrace
import SetupForms.Proofs.OutlineNode
import SetupForms.Proofs.LookupAgreement
import SetupForms.Proofs.WireOutline
import SetupForms.Proofs.Grammar
import SetupForms.Proofs.WireBlueprint
import SetupForms.Proofs.RoundTrip
import SetupForms.Proofs.Agreement
import SetupForms.Proofs.Isolation
import SetupForms.Proofs.Acts
import SetupForms.Proofs.Accounting
import SetupForms.Proofs.Acceptance
import SetupForms.Proofs.Provision
import SetupForms.Proofs.MenuBuild
import SetupForms.Proofs.Rebuild
import SetupForms.Proofs.Backing
import SetupForms.Proofs.Refusals
import SetupForms.Proofs.StoredDefaults
import SetupForms.Proofs.Residue
import SetupForms.Proofs.Locks
import SetupForms.Proofs.Padding
import SetupForms.Proofs.GuidForms
import SetupForms.Proofs.Handover
import SetupForms.Proofs.Rounds
import SetupForms.Proofs.Bounds
import SetupForms.Proofs.DisplacedOutline
import SetupForms.Proofs.Locality
import SetupForms.Proofs.Passes
import SetupForms.Proofs.Independence
import SetupForms.Proofs.RaisedLimits
import SetupForms.Proofs.Strays
import SetupForms.Proofs.FaultClasses
import SetupForms.Proofs.Surfacing
import SetupForms.Proofs.QuestionIds
import SetupForms.Proofs.CommandOutcome
import SetupForms.Proofs.Stamping
import SetupForms.Proofs.Blindness
import SetupForms.Proofs.LookupBlindness
import SetupForms.Proofs.RequestNames
import SetupForms.Proofs.Registers
import SetupForms.Proofs.StoredTexts
import SetupForms.Proofs.MachineReads
import SetupForms.Proofs.InBounds
import SetupForms.Proofs.Framing
import SetupForms.Proofs.FieldQueue
import SetupForms.Proofs.Extraction
import SetupForms.Proofs.ArgumentGroups
import SetupForms.Proofs.JsonText
