import Ctxd.Atomicity
import Ctxd.CatalogOverlaps
import Ctxd.ConfigRuns
import Ctxd.Confirmations
import Ctxd.Containment
import Ctxd.EmptyPrefix
import Ctxd.EnrollmentRuns
import Ctxd.FileFrame
import Ctxd.GlobClasses
import Ctxd.GrantWriters
import Ctxd.GrepAnswers
import Ctxd.GrepFraming
import Ctxd.GrepLines
import Ctxd.GrepPages
import Ctxd.GrepSize
import Ctxd.HealthFile
import Ctxd.Interference
import Ctxd.KeyRotation
import Ctxd.Lib.PartialTree
import Ctxd.ListingTree
import Ctxd.MachineGrants
import Ctxd.Migrations
import Ctxd.MoveCycles
import Ctxd.NameListings
import Ctxd.Objects
import Ctxd.Owners
import Ctxd.Queue
import Ctxd.Reads
import Ctxd.Registrations
import Ctxd.Rotations
import Ctxd.ServiceKeys
import Ctxd.SubmitFrame
import Ctxd.Tokens
import Ctxd.TrackerFiles
import Ctxd.TrackerRuns
import Ctxd.TrackerScan
import Ctxd.TreeNames
import Ctxd.TreeZone
import Ctxd.UserDeletion
import Ctxd.WriterStatus
