import Orchard.Foundation.Execution
import Orchard.Foundation.PowerOfTwo
import Orchard.Foundation.Table
import Orchard.Foundation.BitField
import Orchard.Foundation.Bytes
import Orchard.Foundation.GuestMemory
import Orchard.Memory.FlatView
import Orchard.Ldst.Emulate
import Orchard.Ldst.Architecture
import Orchard.Ldst.Decode
import Orchard.Ldst.Refinement
import Orchard.Dirty.Tracker
import Orchard.Dirty.Harvest
import Orchard.Dirty.Run
import Orchard.Dirty.Handoff
import Orchard.Dirty.Clear
import Orchard.Dirty.Exact
import Orchard.Dirty.Phases
import Orchard.Dirty.Report
import Orchard.Dirty.ClearExact
import Orchard.Bdif.Device
import Orchard.Bdif.UsbDelivery
import Orchard.Bdif.BlockStore
import Orchard.Hvc.Service
import Orchard.Hvc.KeyHandOut
import Orchard.Fetch.Image
import Orchard.Fetch.Chunks
import Orchard.Fetch.Resume
import Orchard.Memory.HostMap
import Orchard.MapPages.Shims
import Orchard.MapPages.Contract
import Orchard.Aes.Device
import Orchard.Aes.Reset
import Orchard.Foundation.Coalesce
import Orchard.GuestRam.Regions
import Orchard.Foundation.Terminated
import Orchard.Nvram.PrepareAux
import Orchard.Nvram.AppendOnly
import Orchard.Fetch.Download
import Orchard.Hvc.Timebase
import Orchard.Vgic.Access
import Orchard.Vgic.AllOrNothing
import Orchard.Bdif.CommandFrame
import Orchard.Vgic.Routing
import Orchard.Bdif.ReceiveQueue
import Orchard.Aes.Framing
import Orchard.Aes.IvContexts
import Orchard.Aes.Bounds
import Orchard.Ldst.Encodings
import Orchard.MapPages.Ledger
import Orchard.Content.Coverage
import Orchard.Content.Ledger
import Orchard.Content.Storage
import Orchard.Plane.Access
import Orchard.Plane.Depend
import Orchard.Plane.Publish
import Orchard.Plane.Wakeups
import Orchard.Foundation.Reordering
import Orchard.Plane.Agreement
import Orchard.Plane.AnyOrder
