import MoqRelay.Log.Complete
import MoqRelay.Log.Duplicate
import MoqRelay.Log.Reader
import MoqRelay.Log.Finals
import MoqRelay.Log.Frame
import MoqRelay.Log.Terminal
import MoqRelay.Fetch.Gaps
import MoqRelay.Fetch.Lost
import MoqRelay.Core.TrackEnd
import MoqRelay.Props.Carry
import MoqRelay.Session.FillRun
import MoqRelay.Session.LifetimeLink
import MoqRelay.Shard.Converge
import MoqRelay.Shard.ClusterOrder
import MoqRelay.Shard.Echo
import MoqRelay.Shard.Canon
import MoqRelay.Bridge.StreamRank
import MoqRelay.Session.TokenTxn
import MoqRelay.Ts.PacketizerOrder
import MoqRelay.Ts.SwitcherLaw
import MoqRelay.Wire.D22RoundTrip
import MoqRelay.Cmaf.Extent
import MoqRelay.Wire.D16Fetch
import MoqRelay.Wire.D16RoundTrip
import MoqRelay.Wire.D18Props
import MoqRelay.Session.ActionOrder
import MoqRelay.Session.FilterWindow
import MoqRelay.Media.Evidence
import MoqRelay.Media.Scale
import MoqRelay.Ts.Egress
import MoqRelay.Msf.JsonUint
