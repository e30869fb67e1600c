import AppleTalk.Properties.Acknowledged
import AppleTalk.Properties.Addressed
import AppleTalk.Properties.Announcements
import AppleTalk.Properties.AurpTransfer
import AppleTalk.Properties.BadNews
import AppleTalk.Properties.BestRoutes
import AppleTalk.Properties.Cable
import AppleTalk.Properties.ChangeLog
import AppleTalk.Properties.Checksums
import AppleTalk.Properties.Circulation
import AppleTalk.Properties.Claiming
import AppleTalk.Properties.ConnIds
import AppleTalk.Properties.DeadPeers
import AppleTalk.Properties.Debts
import AppleTalk.Properties.Distances
import AppleTalk.Properties.Drops
import AppleTalk.Properties.Fragments
import AppleTalk.Properties.HardwareAddresses
import AppleTalk.Properties.Holders
import AppleTalk.Properties.HonestAcks
import AppleTalk.Properties.InconsistentEvents
import AppleTalk.Properties.Interleaving
import AppleTalk.Properties.KeepAlive
import AppleTalk.Properties.Lifetimes
import AppleTalk.Properties.Listings
import AppleTalk.Properties.LlapFrames
import AppleTalk.Properties.Lookups
import AppleTalk.Properties.Names
import AppleTalk.Properties.NewNetworks
import AppleTalk.Properties.NodeAddress
import AppleTalk.Properties.Orphans
import AppleTalk.Properties.OwnDatagrams
import AppleTalk.Properties.OwnNetworks
import AppleTalk.Properties.PeerImport
import AppleTalk.Properties.Pings
import AppleTalk.Properties.PlainReplies
import AppleTalk.Properties.Provenance
import AppleTalk.Properties.Quarantine
import AppleTalk.Properties.Questions
import AppleTalk.Properties.Ranges
import AppleTalk.Properties.Readiness
import AppleTalk.Properties.Reassembly
import AppleTalk.Properties.Repeating
import AppleTalk.Properties.SerialStreams
import AppleTalk.Properties.ServiceSizes
import AppleTalk.Properties.Storms
import AppleTalk.Properties.Strangers
import AppleTalk.Properties.Strays
import AppleTalk.Properties.Sweeps
import AppleTalk.Properties.ZipTransfer
import AppleTalk.Properties.ZoneReplies
import AppleTalk.Properties.ZoneWalk
import AppleTalk.Wire.Stack
import AppleTalk.Properties.SerialCommands
