import NodeReplication.Basic
import NodeReplication.CyclicBuffer.Defs
import NodeReplication.CyclicBuffer.Steps
import NodeReplication.CyclicBuffer.Invariant
import NodeReplication.CyclicBuffer.Append
import NodeReplication.CyclicBuffer.Reads
import NodeReplication.UnboundedLog.Defs
import NodeReplication.UnboundedLog.LogRange
import NodeReplication.UnboundedLog.Steps
import NodeReplication.UnboundedLog.Invariant
import NodeReplication.UnboundedLog.Versions
import NodeReplication.UnboundedLog.Linearizability
import NodeReplication.UnboundedLog.Combiner
import NodeReplication.UnboundedLog.Ownership
import NodeReplication.UnboundedLog.Progress
import NodeReplication.Topology.Defs
import NodeReplication.Topology.Cores
import NodeReplication.Topology.Interleave
import NodeReplication.Topology.Fill
