import SmartDoor.Door.Timing
import SmartDoor.Card.Bounds
import SmartDoor.Card.Revocation
import SmartDoor.Card.Agreement
import SmartDoor.Card.PowerLoss
import SmartDoor.Card.Failure
import SmartDoor.Access.Authorisation
import SmartDoor.Access.Authenticity
import SmartDoor.Server.Connections
import SmartDoor.Card.Format
import SmartDoor.Card.Removal
import SmartDoor.Card.RoundTrip
import SmartDoor.Access.Decisions
import SmartDoor.Access.Delivery
import SmartDoor.Access.Enrolment
import SmartDoor.Access.Device
import SmartDoor.Access.Loop
import SmartDoor.Access.Places
import SmartDoor.Access.Intake
import SmartDoor.Access.Audit
import SmartDoor.Access.Waits
import SmartDoor.Server.DelayTime
import SmartDoor.Server.Protocol
import SmartDoor.Text.Confined
import SmartDoor.Members.Lookup
import SmartDoor.Card.Refusal
import SmartDoor.Server.Buffer
import SmartDoor.Text.CheckSymbol
import SmartDoor.Access.Checksum
import SmartDoor.Run.Simulation
import SmartDoor.Server.Execution
import SmartDoor.System.Machine
import SmartDoor.System.Provenance
import SmartDoor.System.Separation
import SmartDoor.Access.Decoding
import SmartDoor.Timer.Schedule
import SmartDoor.Clock.Chip
import SmartDoor.Display.Bresenham
import SmartDoor.Display.Legible
import SmartDoor.System.Screen
import SmartDoor.System.Listing
