import Cme.Core.Words
import Cme.Ownership.Exclusion
import Cme.Tournament.Progress
import Cme.Workers.HandOver
import Cme.Client.Migration
import Cme.Daemon.Stranded
import Cme.Daemon.Joins
import Cme.Stake.Admission
import Cme.Admission.ScanBound
import Cme.Layout.Disjoint
import Cme.Stake.Steal
import Cme.Peterson.Residency
import Cme.Client.Exchange
import Cme.SharedSession.Batch
import Cme.Client.Recovery
import Cme.Dispatch.Requests
import Cme.Daemon.Leaving
import Cme.Config.RoundTrip
import Cme.Ownership.Granting
import Cme.Daemon.Names
import Cme.Layout.Rebind
import Cme.Daemon.Refusals
import Cme.Daemon.Mirror
import Cme.Daemon.Sleep
import Cme.Recovery.Resume
import Cme.Protocol.Message
import Cme.Recovery.Suspicion
import Cme.Config.Timeouts
