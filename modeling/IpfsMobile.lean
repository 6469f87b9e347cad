import IpfsMobile.Go.Reader
import IpfsMobile.Go.Path
import IpfsMobile.Core.ReturnStyle
import IpfsMobile.Core.Callback
import IpfsMobile.Host.FaithfulInput
import IpfsMobile.Cids
import IpfsMobile.Pubsub.Subscribe
import IpfsMobile.Core.NodeClose
import IpfsMobile.Core.SockPaths
import IpfsMobile.Core.SockFolder
import IpfsMobile.Core.ConfigStore
import IpfsMobile.Core.ConfigKeys
import IpfsMobile.Core.Plugins
import IpfsMobile.Node.RepoMobile
import IpfsMobile.Node.Chain
import IpfsMobile.Release
import IpfsMobile.Host.BufferAccess
import IpfsMobile.Seq.RefProtocol
import IpfsMobile.Seq.GoRefRuns
import IpfsMobile.Host.BodyInput
import IpfsMobile.Core.ConfigRuns
import IpfsMobile.Core.NodeProgress
import IpfsMobile.Core.ConfigOrder
import IpfsMobile.Core.ConfigLaws
import IpfsMobile.Core.PluginsOrder
import IpfsMobile.Node.Options
import IpfsMobile.Jni.NativeLoader
