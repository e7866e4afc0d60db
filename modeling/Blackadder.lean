import Blackadder.Rendezvous.Acyclicity
import Blackadder.Rendezvous.Once
import Blackadder.Proxy.LinkFailure
import Blackadder.Proxy.Reports
import Blackadder.Proxy.Consumption
import Blackadder.Reliability.Protocol
import Blackadder.Topology.LinkIds
import Blackadder.Ltp.Retransmission
import Blackadder.Ltp.Conversation
import Blackadder.Http.Responses
import Blackadder.Utp.Reassembly
import Blackadder.Http.Requests
import Blackadder.Nap.RoutingPrefixes
import Blackadder.Deployment.Switching
import Blackadder.Deployment.Assignment
import Blackadder.Forwarding.PayloadLength
import Blackadder.Topology.Unicast
import Blackadder.Ltp.RoundTripTimes
import Blackadder.Http.HeaderParser
import Blackadder.MCast.Membership
import Blackadder.Http.SessionKeys
import Blackadder.Qos.LsmPacket
import Blackadder.Application.Events
import Blackadder.Nap.EventLoop
import Blackadder.Pla.Curve
import Blackadder.Pla.SequenceNumbers
