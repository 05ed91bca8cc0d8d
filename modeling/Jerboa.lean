import Jerboa.Api.Framing
import Jerboa.Api.Images
import Jerboa.Api.Networks
import Jerboa.Api.Reclaim
import Jerboa.Boot.Args
import Jerboa.Boot.Disk
import Jerboa.Cas.Safety
import Jerboa.Cluster.Trust
import Jerboa.Heap.Safety
import Jerboa.Manifest.Hosts
import Jerboa.Native.Delivery
import Jerboa.Native.Flows
import Jerboa.Native.Segments
import Jerboa.Net.Disjoint
import Jerboa.Ops.Links
import Jerboa.Ops.Packages
import Jerboa.Package.Container
import Jerboa.Package.Sound
import Jerboa.Package.Version
import Jerboa.Peer.Descriptors
import Jerboa.Peer.Protocol
import Jerboa.Registry.Upload
import Jerboa.Release.Freshness
import Jerboa.Snapshot.Quota
import Jerboa.Tfs.Reuse
import Jerboa.Vm.Backoff
import Jerboa.Vm.Decoders
import Jerboa.Vm.Done
import Jerboa.Vm.ExplicitStop
import Jerboa.Vm.LogBuffer
import Jerboa.Vm.Removal
import Jerboa.Volumes.Labels
